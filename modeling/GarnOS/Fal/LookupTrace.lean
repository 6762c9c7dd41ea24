import GarnOS.Fal.VnodeSpec

/-! What an open leaves behind. A lookup makes a vnode for every name that is not open, and recycles
what it has searched without asking who made it; an open that succeeds takes a reference. -/
namespace GarnOS
open Function Outcome List

/-- What was freed on the way from `s` to `t` did not exist in `s`. -/
def FreedOwn (s t : Fal) : Prop :=
  ∃ gone, t.frees = gone ++ s.frees ∧ ∀ f ∈ gone, s.mem.get f.addr = none

/-- From `s` to `t` vnodes are made and freed, and nothing else happens to those of `s`. -/
def KeptOrFreed (s t : Fal) : Prop :=
  ∃ gone, t.frees = gone ++ s.frees ∧
    ∀ a v, s.mem.get a = some v → t.mem.get a = some v ∨ ∃ f ∈ gone, f.addr = a

section Kept
variable {k : Kmalloc} {s t u : Fal} {r : Option ℕ} {path : List Char}

theorem KeptOrFreed.trans (h : KeptOrFreed s t) (h' : KeptOrFreed t u) : KeptOrFreed s u := by
  obtain ⟨gone, hfrees, hkept⟩ := h
  obtain ⟨gone', hfrees', hkept'⟩ := h'
  refine ⟨gone' ++ gone, by rw [hfrees', hfrees, append_assoc], fun a v ha => ?_⟩
  obtain ht | ⟨f, hf, haddr⟩ := hkept a v ha
  · obtain hu | ⟨f, hf, haddr⟩ := hkept' a v ht
    · exact .inl hu
    · exact .inr ⟨f, mem_append_left _ hf, haddr⟩
  · exact .inr ⟨f, mem_append_right _ hf, haddr⟩

theorem KeptOrFreed.kept (h : KeptOrFreed s t) (hown : FreedOwn s t) {a : ℕ} {v : Vnode}
    (ha : s.mem.get a = some v) : t.mem.get a = some v := by
  obtain ⟨gone, hfrees, hkept⟩ := h
  obtain ⟨gone', hfrees', hgone⟩ := hown
  obtain rfl : gone = gone' := append_cancel_right (hfrees.symm.trans hfrees')
  obtain ht | ⟨f, hf, rfl⟩ := hkept a v ha
  · exact ht
  · rw [hgone f hf] at ha
    cases ha

end Kept

end GarnOS
