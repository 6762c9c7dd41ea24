import Mathlib.Tactic

/-! Byte-addressed memory with little-endian 64-bit words, range fills and range copies. -/
namespace ByteMemory
open Nat

abbrev Mem := ℕ → BitVec 8

/-- The bytes of `m` and `m'` agree on `[a, a + n)`. -/
def EqOn (m m' : Mem) (a n : ℕ) : Prop := ∀ x, a ≤ x → x < a + n → m x = m' x

theorem EqOn.refl (m : Mem) (a n : ℕ) : EqOn m m a n := fun _ _ _ => rfl

variable {m' : Mem} {a n b k x d s : ℕ}

theorem EqOn.symm {m : Mem} (h : EqOn m m' a n) : EqOn m' m a n :=
  fun x h1 h2 => (h x h1 h2).symm

theorem EqOn.trans {m m'' : Mem} (h : EqOn m m' a n) (h' : EqOn m' m'' a n) :
    EqOn m m'' a n := fun x h1 h2 => (h x h1 h2).trans (h' x h1 h2)

theorem EqOn.mono {m : Mem} (h : EqOn m m' a n) (hb : a ≤ b) (hk : b + k ≤ a + n) :
    EqOn m m' b k := fun x h1 h2 => h x (by omega) (by omega)

def fill (m : Mem) (a n : ℕ) (c : BitVec 8) : Mem := fun x => if a ≤ x ∧ x < a + n then c else m x

theorem fill_in (m : Mem) (c : BitVec 8) (h1 : a ≤ x) (h2 : x < a + n) :
    fill m a n c x = c := if_pos ⟨h1, h2⟩

theorem fill_eqOn (m : Mem) (c : BitVec 8) (h : a + n ≤ b ∨ b + k ≤ a) :
    EqOn (fill m a n c) m b k := by
  intro x h1 h2
  exact if_neg (by omega)

def copy (m : Mem) (d s n : ℕ) : Mem := fun x => if d ≤ x ∧ x < d + n then m (s + (x - d)) else m x

theorem copy_in (m : Mem) (h1 : d ≤ x) (h2 : x < d + n) :
    copy m d s n x = m (s + (x - d)) := if_pos ⟨h1, h2⟩

theorem copy_eqOn (m : Mem) (h : d + n ≤ b ∨ b + k ≤ d) : EqOn (copy m d s n) m b k := by
  intro x h1 h2
  exact if_neg (by omega)

def word (m : Mem) (a : ℕ) : BitVec 64 :=
  m (a + 7) ++ m (a + 6) ++ m (a + 5) ++ m (a + 4) ++ m (a + 3) ++ m (a + 2) ++ m (a + 1) ++ m a

/-- Store the word `v` at `a`, least significant byte first. -/
def setWord (m : Mem) (a : ℕ) (v : BitVec 64) : Mem :=
  fun x => if a ≤ x ∧ x < a + 8 then v.extractLsb' (8 * (x - a)) 8 else m x

theorem setWord_eqOn (m : Mem) (v : BitVec 64) (h : a + 8 ≤ b ∨ b + k ≤ a) :
    EqOn (setWord m a v) m b k := by
  intro x h1 h2
  exact if_neg (by omega)

theorem setWord_in (m : Mem) (a : ℕ) (v : BitVec 64) (hk : k < 8) :
    setWord m a v (a + k) = v.extractLsb' (8 * k) 8 := by
  have h : a ≤ a + k ∧ a + k < a + 8 := by omega
  simp [setWord, h]

theorem word_congr {m : Mem} (h : EqOn m m' a 8) : word m a = word m' a := by
  unfold word
  rw [h a (by omega) (by omega), h (a + 1) (by omega) (by omega), h (a + 2) (by omega) (by omega),
    h (a + 3) (by omega) (by omega), h (a + 4) (by omega) (by omega),
    h (a + 5) (by omega) (by omega), h (a + 6) (by omega) (by omega),
    h (a + 7) (by omega) (by omega)]

theorem append_bytes (v : BitVec 64) :
    v.extractLsb' 56 8 ++ v.extractLsb' 48 8 ++ v.extractLsb' 40 8 ++ v.extractLsb' 32 8 ++
      v.extractLsb' 24 8 ++ v.extractLsb' 16 8 ++ v.extractLsb' 8 8 ++ v.extractLsb' 0 8 = v := by
  apply BitVec.eq_of_getLsbD_eq
  intro i hi
  simp only [BitVec.getLsbD_append, BitVec.getLsbD_extractLsb']
  repeat' split
  all_goals
    rw [show decide (_ < 8) = true by simp; omega, Bool.true_and]
    congr 1
    omega

section
variable (m : Mem)
include m

@[simp] theorem word_setWord (a : ℕ) (v : BitVec 64) : word (setWord m a v) a = v := by
  unfold word
  have h0 : setWord m a v a = v.extractLsb' 0 8 := setWord_in m a v (k := 0) (by omega)
  rw [h0, setWord_in m a v (k := 1) (by omega), setWord_in m a v (k := 2) (by omega),
    setWord_in m a v (k := 3) (by omega), setWord_in m a v (k := 4) (by omega),
    setWord_in m a v (k := 5) (by omega), setWord_in m a v (k := 6) (by omega),
    setWord_in m a v (k := 7) (by omega)]
  exact append_bytes v

variable {a b k n : ℕ}

theorem word_setWord_of_disjoint (v : BitVec 64) (h : a + 8 ≤ b ∨ b + 8 ≤ a) :
    word (setWord m a v) b = word m b :=
  word_congr (setWord_eqOn m v h)

theorem extractLsb'_word (a : ℕ) (hk : k < 8) : (word m a).extractLsb' (8 * k) 8 = m (a + k) := by
  unfold word
  interval_cases k
  all_goals
    simp (disch := decide) only [reduceMul, reduceSub, add_zero,
      BitVec.extractLsb'_append_eq_of_le, BitVec.extractLsb'_append_eq_right]
  exact BitVec.extractLsb'_eq_self

theorem setWord_setWord (a : ℕ) (v w : BitVec 64) :
    setWord (setWord m a v) a w = setWord m a w := by
  funext x
  by_cases hx : a ≤ x ∧ x < a + 8
  all_goals simp [setWord, hx]

theorem setWord_word (a : ℕ) : setWord m a (word m a) = m := by
  funext x
  by_cases hx : a ≤ x ∧ x < a + 8
  · obtain ⟨k, rfl⟩ := Nat.exists_eq_add_of_le hx.1
    rw [setWord_in m a _ (by omega), extractLsb'_word m a (by omega)]
  · exact if_neg hx

theorem word_fill_zero (h1 : a ≤ b) (h2 : b + 8 ≤ a + n) : word (fill m a n 0) b = 0 := by
  have hz : EqOn (fill m a n 0) (fun _ => 0) b 8 :=
    fun x hx1 hx2 => fill_in m 0 (by omega) (by omega)
  rw [word_congr hz]
  simp only [word]
  decide

theorem word_copy {d s : ℕ} (hk : k + 8 ≤ n) : word (copy m d s n) (d + k) = word m (s + k) := by
  have hb (j : ℕ) (hj : j < 8) : copy m d s n (d + k + j) = m (s + k + j) := by
    rw [copy_in m (by omega) (by omega)]
    congr 1
    omega
  unfold word
  rw [hb 1 (by omega), hb 2 (by omega), hb 3 (by omega), hb 4 (by omega), hb 5 (by omega),
    hb 6 (by omega), hb 7 (by omega)]
  rw [show copy m d s n (d + k) = m (s + k) from hb 0 (by omega)]

end

def byteAt (m : Mem) (a : ℕ) : BitVec 8 := m (a % 2 ^ 64)

@[simp] theorem byteAt_mod_add (m : Mem) (a k : ℕ) :
    byteAt m (a % 2 ^ 64 + k) = byteAt m (a + k) := by
  simp [byteAt]

def Stored (m : Mem) (a : ℕ) (bs : List (BitVec 8)) : Prop :=
  ∀ i b, bs[i]? = some b → byteAt m (a + i) = b

section Stored
variable {m : Mem} {a : ℕ} {b : BitVec 8} {bs cs : List (BitVec 8)}

theorem stored_nil (m : Mem) (a : ℕ) : Stored m a [] := by simp [Stored]

theorem stored_cons : Stored m a (b :: bs) ↔ byteAt m a = b ∧ Stored m (a + 1) bs := by
  constructor
  · intro h
    refine ⟨h 0 b rfl, fun i c hc => ?_⟩
    rw [add_assoc, add_comm 1 i]
    exact h (i + 1) c hc
  · rintro ⟨h0, h⟩ i c hc
    cases i with
    | zero => exact h0.trans (Option.some.inj hc)
    | succ i =>
      have htail := h i c hc
      rwa [add_assoc, add_comm 1 i] at htail

theorem stored_append : Stored m a (bs ++ cs) ↔ Stored m a bs ∧ Stored m (a + bs.length) cs := by
  induction bs generalizing a with
  | nil => simp [stored_nil]
  | cons b bs ih =>
    rw [List.cons_append, stored_cons, stored_cons, ih, List.length_cons, and_assoc,
      add_assoc a 1, add_comm 1]

@[simp] theorem stored_mod : Stored m (a % 2 ^ 64) bs ↔ Stored m a bs := by
  simp only [Stored, byteAt_mod_add]

end Stored

end ByteMemory
