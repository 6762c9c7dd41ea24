import Mathlib.Tactic

/-! First fit on a line of cells: what one left-to-right scan for a run of free
cells knows at each position, and what it has established when it stops. -/
namespace FirstFit
variable {free : ℕ → Prop} {lo hi n k c b : ℕ}

def Run (free : ℕ → Prop) (b n : ℕ) : Prop := ∀ q, b ≤ q → q < b + n → free q

/-- No run of `n` free cells lies inside `[lo, hi)`. -/
def NoRun (free : ℕ → Prop) (lo hi n : ℕ) : Prop := ∀ b, lo ≤ b → b + n ≤ hi → ¬ Run free b n

/-- `b` starts the lowest run of `n` free cells inside `[lo, hi)`. -/
structure First (free : ℕ → Prop) (lo hi n b : ℕ) : Prop where
  ge : lo ≤ b
  le : b + n ≤ hi
  run : Run free b n
  least : ∀ b', lo ≤ b' → b' < b → ¬ Run free b' n

theorem First.unique (h : First free lo hi n b) (h' : First free lo hi n c) : b = c := by
  rcases Nat.lt_trichotomy b c with hlt | rfl | hlt
  · exact absurd h.run (h'.least b h.ge hlt)
  · rfl
  · exact absurd h'.run (h.least c h'.ge hlt)

/-- The knowledge of a scan standing at `k`: the open run started at `c` (`c = k` when
there is none), it cannot be extended to the left, and no complete run was passed. -/
structure Tracks (free : ℕ → Prop) (lo n k c : ℕ) : Prop where
  ge : lo ≤ c
  le : c ≤ k
  run : Run free c (k - c)
  short : k - c < n
  edge : c = lo ∨ ¬ free (c - 1)
  passed : NoRun free lo k n

theorem Tracks.start (hn : 0 < n) : Tracks free lo n lo lo where
  ge := le_rfl
  le := le_rfl
  run := by
    intro q h1 h2
    omega
  short := by omega
  edge := Or.inl rfl
  passed := by
    intro b h1 h2
    omega

section
variable (h : Tracks free lo n k c)
include h

theorem Tracks.taken (hk : ¬ free k) : Tracks free lo n (k + 1) (k + 1) where
  ge := by have := h.ge; have := h.le; omega
  le := le_rfl
  run := by
    intro q h1 h2
    omega
  short := by have := h.short; omega
  edge := Or.inr (by simpa using hk)
  passed := by
    intro b hb hle hrun
    by_cases hbk : b + n ≤ k
    · exact h.passed b hb hbk hrun
    · have := h.short
      exact hk (hrun k (by omega) (by omega))

theorem Tracks.extend (hk : free k) (hn : k + 1 - c < n) : Tracks free lo n (k + 1) c where
  ge := h.ge
  le := by have := h.le; omega
  run := by
    intro q h1 h2
    by_cases hq : q = k
    · exact hq ▸ hk
    · exact h.run q h1 (by omega)
  short := hn
  edge := h.edge
  passed := by
    intro b hb hle hrun
    by_cases hbk : b + n ≤ k
    · exact h.passed b hb hbk hrun
    · -- a run that ends at `k` would have to start left of `c`, across its taken edge
      have hle' := h.le
      rcases h.edge with hc | hc
      · omega
      · exact hc (hrun (c - 1) (by omega) (by omega))

theorem Tracks.found (hk : free k) (hn : k + 1 - c = n) (hhi : k < hi) : First free lo hi n c where
  ge := h.ge
  le := by have := h.le; omega
  run := by
    intro q h1 h2
    by_cases hq : q = k
    · exact hq ▸ hk
    · exact h.run q h1 (by have := h.le; omega)
  least := by
    intro b' hlo hlt
    have := h.le
    exact h.passed b' hlo (by omega)

end

end FirstFit
