import GarnOS.Paging.Vaspace

/-! The search of `sys_mmap`. The pages it looks at are a page apart and start with the page of the
hint, and it stops at the lowest run that is long enough. -/
namespace GarnOS
open ByteMemory Outcome FirstFit

def mmapHint (addr : BitVec 64) : ℕ := if addr = 0 then 0x1000 else addr.toNat

def mmapEnd (flags : BitVec 32) : ℕ := if flags &&& MAP_32BIT != 0 then 0x80000000 else VMM_USER_END

def mmapProbes (addr : BitVec 64) (flags : BitVec 32) : ℕ :=
  (mmapEnd flags - mmapHint addr + (PAGE_SIZE - 1)) / PAGE_SIZE

/-- The calls that `sys_mmap` takes: a length, an address of user space, and flags that ask for a
private mapping without a file. -/
structure MmapAccepts (addr length : BitVec 64) (flags : BitVec 32) : Prop where
  length : length ≠ 0
  addr : addr.toNat ≤ VMM_USER_END
  unshared : flags &&& MAP_SHARED = 0
  priv : flags &&& MAP_PRIVATE ≠ 0
  anonymous : flags &&& MAP_ANONYMOUS ≠ 0

/-- The page that lies `k` pages behind the hint is free. -/
def FreeFrom (m : Mem) (pt hint k : ℕ) : Prop := vmmIsPageFree m pt (hint + k * PAGE_SIZE) = true

section Search
variable {m : Mem} {pt length hint : ℕ} {i n : ℕ}

theorem mmapProbe_free (h : vmmIsPageFree m pt i = true) (st : ℕ × ℕ) :
    mmapProbe m pt length i st = if st.1 + 1 = length then .error (if st.1 + 1 = 1 then i else st.2)
      else .ok (st.1 + 1, if st.1 + 1 = 1 then i else st.2) := by
  rw [mmapProbe, if_pos h]

theorem mmapProbe_taken (h : ¬vmmIsPageFree m pt i = true) (st : ℕ × ℕ) :
    mmapProbe m pt length i st = .ok (0, st.2) := by
  rw [mmapProbe, if_neg h]

/-- Before the pass `k` the open run is `npages` long and starts at `addr`. -/
structure Probing (m : Mem) (pt hint n k : ℕ) (st : ℕ × ℕ) : Prop where
  scan : Tracks (FreeFrom m pt hint) 0 n k (k - st.1)
  le : st.1 ≤ k
  addr : 0 < st.1 → st.2 = hint + (k - st.1) * PAGE_SIZE

theorem Probing.step {k probes : ℕ} {st : ℕ × ℕ} (h : Probing m pt hint n k st) (hk : k < probes) :
    Post (mmapProbe m pt n (hint + k * PAGE_SIZE) st) (Probing m pt hint n (k + 1))
      (fun base => ∃ c, base = hint + c * PAGE_SIZE ∧ First (FreeFrom m pt hint) 0 probes n c) := by
  have hle := h.le
  by_cases hfree : FreeFrom m pt hint k
  · -- the run grows at its end; its start is this page if there was none
    have haddr : (if st.1 + 1 = 1 then hint + k * PAGE_SIZE else st.2) =
        hint + (k - st.1) * PAGE_SIZE := by
      split
      · next hone => rw [show k - st.1 = k by omega]
      · next hmore => exact h.addr (by omega)
    rw [mmapProbe_free hfree, haddr]
    split
    · next hlast =>
      exact post_error.mpr ⟨k - st.1, rfl, h.scan.found hfree (by omega) hk⟩
    · next hmore =>
      have hshort := h.scan.short
      have hstart : k + 1 - (st.1 + 1) = k - st.1 := by omega
      refine post_ok.mpr ⟨?_, by dsimp only; omega, fun _ => ?_⟩
      · rw [hstart]
        exact h.scan.extend hfree (by omega)
      · rw [hstart]
  · rw [mmapProbe_taken hfree]
    exact post_ok.mpr ⟨h.scan.taken hfree, Nat.zero_le _, fun hpos => absurd hpos (lt_irrefl 0)⟩

theorem mmapSearch_post (m : Mem) (pt hint : ℕ) (hn : 0 < n) (probes : ℕ) :
    Post (forRange (fun k => mmapProbe m pt n (hint + k * PAGE_SIZE)) 0 probes (0, hint))
      (fun _ => NoRun (FreeFrom m pt hint) 0 probes n)
      (fun base => ∃ c, base = hint + c * PAGE_SIZE ∧ First (FreeFrom m pt hint) 0 probes n c) := by
  have hstart : Probing m pt hint n 0 (0, hint) :=
    ⟨Tracks.start hn, le_rfl, fun hpos => absurd hpos (lt_irrefl 0)⟩
  refine (forRange_post (Probing m pt hint n) hstart ?_).mono_ok ?_
  · rintro k st - hk hst
    exact hst.step (by omega)
  · intro st hst
    rw [Nat.zero_add] at hst
    exact hst.scan.passed

theorem mmapSearch_zero (m : Mem) (pt hint probes : ℕ) :
    Post (forRange (fun k => mmapProbe m pt 0 (hint + k * PAGE_SIZE)) 0 probes (0, hint))
      (fun _ => True) (fun _ => False) := by
  refine (forRange_post (fun _ _ => True) trivial ?_).mono_ok fun _ _ => trivial
  intro k st _ _ _
  by_cases hfree : vmmIsPageFree m pt (hint + k * PAGE_SIZE) = true
  · rw [mmapProbe_free hfree, if_neg (Nat.succ_ne_zero _)]
    exact post_ok.mpr trivial
  · rw [mmapProbe_taken hfree]
    exact post_ok.mpr trivial

end Search

section Call
variable {s : Machine} {pt : ℕ} {addr length : BitVec 64} {prot flags : BitVec 32}

theorem sysMmap_refused (s : Machine) (pt : ℕ) (prot : BitVec 32)
    (h : ¬MmapAccepts addr length flags) :
    ∃ z : ℤ, sysMmap s pt addr length prot flags = .ok (z, s) ∧ z < 0 := by
  unfold sysMmap
  split_ifs with h1 h2 h3 h4 h5
  · exact ⟨_, rfl, by decide⟩
  · exact ⟨_, rfl, by decide⟩
  · exact ⟨_, rfl, by decide⟩
  · exact ⟨_, rfl, by decide⟩
  · exact ⟨_, rfl, by decide⟩
  all_goals
    exact absurd ⟨h1, Nat.not_lt.mp h2, by simpa using h3, by simpa using h4, by simpa using h5⟩ h

theorem sysMmap_eq (h : MmapAccepts addr length flags) :
    sysMmap s pt addr length prot flags =
      match forRange (fun k => mmapProbe s.mem pt (length.toNat / PAGE_SIZE)
        (mmapHint addr + k * PAGE_SIZE)) 0 (mmapProbes addr flags) (0, mmapHint addr) with
      | .ok _ => .ok (-ENOMEM, s)
      | .error base => do
        let s ← mapFreshPages pt base (length.toNat / PAGE_SIZE) (mmapFlags prot) s
        return (base, s) := by
  unfold sysMmap
  rw [if_neg h.length, if_neg (Nat.not_lt.mpr h.addr), if_neg (by simp [h.unshared]),
    if_neg (by simpa using h.priv), if_neg (by simpa using h.anonymous)]
  rfl

theorem mmapEnd_spec (flags : BitVec 32) : mmapEnd flags % 4096 = 0 ∧ mmapEnd flags ≤ 2 ^ 47 := by
  unfold mmapEnd VMM_USER_END
  split <;> decide

theorem run_below {n c : ℕ}
    (h : First (FreeFrom s.mem pt (mmapHint addr)) 0 (mmapProbes addr flags) n c) :
    c + n ≤ 2 ^ 35 ∧ ∀ j < n,
      ((mmapHint addr + c * 4096 + j * 4096) / 4096 + 1) * 4096 ≤ mmapEnd flags := by
  obtain ⟨haligned, hend⟩ := mmapEnd_spec flags
  have hle := h.le
  unfold mmapProbes PAGE_SIZE at hle
  refine ⟨by omega, fun j hj => ?_⟩
  omega

theorem run_free {m : Mem} {hint hi n c : ℕ} (h : First (FreeFrom m pt hint) 0 hi n c) {j : ℕ}
    (hj : j < n) : vmmIsPageFree m pt (hint + c * 4096 + j * 4096) = true := by
  have hfree := h.run (c + j) (by omega) (by omega)
  rwa [FreeFrom, PAGE_SIZE, Nat.add_mul, ← Nat.add_assoc] at hfree

theorem sysMmap_cases (s : Machine) (pt : ℕ) (addr length : BitVec 64) (prot flags : BitVec 32) :
    (∃ z : ℤ, sysMmap s pt addr length prot flags = .ok (z, s) ∧ z < 0 ∧
      (MmapAccepts addr length flags → z = -ENOMEM ∧ (length.toNat / PAGE_SIZE = 0 ∨
        NoRun (FreeFrom s.mem pt (mmapHint addr)) 0 (mmapProbes addr flags)
          (length.toNat / PAGE_SIZE)))) ∨
    ∃ c, 0 < length.toNat / PAGE_SIZE ∧
      First (FreeFrom s.mem pt (mmapHint addr)) 0 (mmapProbes addr flags)
        (length.toNat / PAGE_SIZE) c ∧
      sysMmap s pt addr length prot flags = do
        let s ← mapFreshPages pt (mmapHint addr + c * PAGE_SIZE) (length.toNat / PAGE_SIZE)
          (mmapFlags prot) s
        return (((mmapHint addr + c * PAGE_SIZE : ℕ) : ℤ), s) := by
  by_cases haccepts : MmapAccepts addr length flags
  · rw [sysMmap_eq haccepts]
    have hfails : (-ENOMEM : ℤ) < 0 := by decide
    rcases Nat.eq_zero_or_pos (length.toNat / PAGE_SIZE) with hzero | hpos
    · have hsearch := mmapSearch_zero s.mem pt (mmapHint addr) (mmapProbes addr flags)
      rw [hzero]
      split
      · exact .inl ⟨_, rfl, hfails, fun _ => ⟨rfl, .inl rfl⟩⟩
      · next base hfound => exact (hsearch.of_error hfound).elim
    · have hsearch := mmapSearch_post s.mem pt (mmapHint addr) hpos (mmapProbes addr flags)
      split
      · next st hnone => exact .inl ⟨_, rfl, hfails, fun _ => ⟨rfl, .inr (hsearch.of_ok hnone)⟩⟩
      · next base hfound =>
        obtain ⟨c, rfl, hfirst⟩ := hsearch.of_error hfound
        exact .inr ⟨c, hpos, hfirst, rfl⟩
  · obtain ⟨z, hcall, hz⟩ := sysMmap_refused s pt prot haccepts
    exact .inl ⟨z, hcall, hz, fun h => absurd h haccepts⟩

end Call

end GarnOS
