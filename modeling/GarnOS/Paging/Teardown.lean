import GarnOS.Paging.Effects

/-! Tear-down frees exactly the frames of the tree it walks, although it reads the tables
while it is freeing what they point to. -/
namespace GarnOS
open ByteMemory Outcome Finset RadixTree PageTableEntry

/-- The links through present entries, at every level. -/
abbrev presentLinks (m : Mem) : Links ℕ := links PageTableEntry.present m

theorem holds_present (n : ℕ) (e : PageTableEntry) :
    holds PageTableEntry.present n e = e.present := by
  cases n with
  | zero | succ n => rfl

variable {m m' : Mem} {t i : ℕ}

theorem presentLinks_of_present (n : ℕ) (h : (readEntry m t i).present = true) :
    presentLinks m n t i = some (readEntry m t i).frame := by
  simp [links, holds_present, h]

theorem presentLinks_of_absent (n : ℕ) (h : (readEntry m t i).present = false) :
    presentLinks m n t i = none := by
  simp [links, holds_present, h]

section Child
variable {s s₁ s₂ s₃ : Machine} {n f : ℕ} {W V : Finset ℕ}
  (hd : Distinct slots (presentLinks s.mem) (n + 1) t) (hi : i < slots (n + 1))
  (hc : presentLinks s.mem n t i = some f)
  (h1 : Released s (branches slots (presentLinks s.mem) n t (range i)) W s₁)
include hd hi hc h1

/-- The subtree in slot `i` survives whatever happened to the subtrees before it. -/
theorem Released.child (hb : ∀ g ∈ below slots (presentLinks s.mem) (n + 1) t, g < s.pmm.pages)
    (hW : W ⊆ insert t (branches slots (presentLinks s.mem) n t (range i))) :
    Agree slots (presentLinks s.mem) (presentLinks s₁.mem) n f ∧ f < s₁.pmm.pages ∧
      ∀ g ∈ below slots (presentLinks s₁.mem) n f, g < s₁.pmm.pages := by
  have hbranch : branch slots (presentLinks s.mem) n t i = footprint slots _ n f :=
    branch_of_some hc
  have hagree : Agree slots (presentLinks s.mem) (presentLinks s₁.mem) n f := by
    apply agree_of_frameEq
    intro u hu
    apply h1.mem
    have hmem : u ∈ branch slots (presentLinks s.mem) n t i := by
      rw [hbranch]
      exact tables_subset_footprint _ n f hu
    intro huW
    rcases mem_insert.mp (hW huW) with rfl | hv
    · exact hd.not_mem_branch hi hmem
    · exact disjoint_left.mp (hd.disjoint_range hi) hv hmem
  have hsub := branch_subset_below (c := presentLinks s.mem) (n := n) (t := t) hi
  rw [hbranch, footprint_eq, insert_subset_iff] at hsub
  rw [h1.pages, below_congr hagree]
  exact ⟨hagree, hb f hsub.1, fun g hg => hb g (hsub.2 hg)⟩

theorem Released.subtree (h2 : Released s₁ (below slots (presentLinks s.mem) n f) V s₂)
    (h3 : Released s₂ {f} {f} s₃) :
    Released s (branches slots (presentLinks s.mem) n t (range (i + 1))) (W ∪ V ∪ {f}) s₃ := by
  have hbranch : branch slots (presentLinks s.mem) n t i = footprint slots _ n f :=
      branch_of_some hc
  have hvis := hd.disjoint_range hi
  rw [hbranch, footprint_eq, disjoint_insert_right] at hvis
  have hf := (hd.child hi hc).not_mem_below
  have h12 := h1.trans h2 hvis.2
  have h123 := h12.trans h3 (by
    rw [disjoint_singleton_right, mem_union, not_or]
    exact ⟨hvis.1, hf⟩)
  rw [branches_range_succ, hbranch, footprint_eq, insert_eq, union_comm {f}, ← union_assoc]
  exact h123

end Child

theorem destroyEntries_post (n t : ℕ) (s : Machine)
    (hd : Distinct slots (presentLinks s.mem) n t)
    (hb : ∀ f ∈ below slots (presentLinks s.mem) n t, f < s.pmm.pages) :
    Post (destroyEntries n t s)
      (Released s (below slots (presentLinks s.mem) n t) (below slots (presentLinks s.mem) n t))
      (fun _ => False) := by
  induction n generalizing t s with
  | zero =>
    rw [below_zero]
    exact post_ok.mpr (Released.refl s _)
  | succ n ih =>
    let c := presentLinks s.mem
    let inv := fun i u =>
      Released s (branches slots c n t (range i)) (branches slots c n t (range i)) u
    have hstart : inv 0 s := by
      simp only [inv, range_zero, branches_empty]
      exact Released.refl s _
    apply (forRange_post inv hstart ?_).mono_ok
    · intro u hu
      simp only [inv, Nat.zero_add, branches_range] at hu
      exact hu
    intro i u _ hi hu
    rw [Nat.zero_add] at hi
    have hentry : readEntry u.mem t i = readEntry s.mem t i :=
      (readEntry_congr (hu.mem t ((hd.upTo hi.le).not_mem_branches))
        (hi.trans_le (slots_le _))).symm
    simp only [hentry]
    cases hp : (readEntry s.mem t i).present with
    | false =>
      have hnone : branch slots c n t i = ∅ := branch_of_none (presentLinks_of_absent n hp)
      simp only [inv, branches_range_succ, hnone, union_empty]
      exact post_ok.mpr hu
    | true =>
      have hc : c n t i = some (readEntry s.mem t i).frame := presentLinks_of_present n hp
      obtain ⟨hagree, hlt, hbelow⟩ := Released.child hd hi hc hu hb (subset_insert _ _)
      have hchild := ih _ u ((hd.child hi hc).congr hagree) hbelow
      rw [below_congr hagree] at hchild
      apply hchild.bind
      intro v hv
      apply (pmmFree_one_post (hlt.trans_eq hv.pages.symm)).mono_ok
      intro w hw
      apply (Released.subtree hd hi hc hu hv hw).mono
      rw [branches_range_succ, branch_of_some hc, footprint_eq, union_assoc, union_comm _ {_},
        ← insert_eq]

/-- An entry after `arch_vaspace_clear` has passed it. -/
def PageTableEntry.cleared (e : PageTableEntry) : PageTableEntry :=
  if e.present then { e with present := false, addr := 0 } else e

/-- Entries below `i` are reset, the others are as they were. -/
def ClearedBelow (m : Mem) (t i : ℕ) (m' : Mem) : Prop :=
  ∀ j < 512, readEntry m' t j = if j < i then (readEntry m t j).cleared else readEntry m t j

section
variable (h : ClearedBelow m t i m')
include h

theorem ClearedBelow.congr {m'' : Mem} (hf : FrameEq m' m'' t) : ClearedBelow m t i m'' :=
  fun j hj => (readEntry_congr hf hj).symm.trans (h j hj)

theorem ClearedBelow.skip (hp : (readEntry m t i).present = false) :
    ClearedBelow m t (i + 1) m' := by
  intro j hj
  rw [h j hj]
  by_cases hji : j = i
  · subst hji
    simp [PageTableEntry.cleared, hp]
  · have hiff : j < i + 1 ↔ j < i := by omega
    simp [hiff]

theorem ClearedBelow.reset (hi : i < 512) (hp : (readEntry m t i).present = true) :
    ClearedBelow m t (i + 1)
      (writeEntry m' t i { readEntry m' t i with present := false, addr := 0 }) := by
  intro j hj
  by_cases hji : j = i
  · subst hji
    rw [readEntry_writeEntry, h j hi]
    simp [PageTableEntry.cleared, hp]
  · have hiff : j < i + 1 ↔ j < i := by omega
    rw [readEntry_writeEntry_ne hi hj (Or.inr hji), h j hj]
    simp [hiff]

end

theorem clearEntries_post (n t : ℕ) (s : Machine)
    (hd : Distinct slots (presentLinks s.mem) n t)
    (hb : ∀ f ∈ below slots (presentLinks s.mem) n t, f < s.pmm.pages) :
    Post (clearEntries n t s)
      (fun s' => Released s (below slots (presentLinks s.mem) n t)
        (footprint slots (presentLinks s.mem) n t) s' ∧
        (0 < n → ClearedBelow s.mem t (slots n) s'.mem))
      (fun _ => False) := by
  induction n generalizing t s with
  | zero =>
    rw [below_zero]
    exact post_ok.mpr ⟨Released.refl s _, fun h => absurd h (by decide)⟩
  | succ n ih =>
    let c := presentLinks s.mem
    let inv := fun i u => Released s (branches slots c n t (range i))
        (insert t (branches slots c n t (range i))) u ∧
      ClearedBelow s.mem t i u.mem
    have hstart : inv 0 s := by
      simp only [inv, range_zero, branches_empty]
      exact ⟨Released.refl s _, fun j _ => by simp⟩
    apply (forRange_post inv hstart ?_).mono_ok
    · rintro u ⟨hu, hentries⟩
      rw [Nat.zero_add] at hu hentries
      rw [footprint_eq, ← branches_range]
      exact ⟨hu, fun _ => hentries⟩
    rintro i u _ hi ⟨hu, hentries⟩
    rw [Nat.zero_add] at hi
    have hi512 := hi.trans_le (slots_le _)
    have hentry : readEntry u.mem t i = readEntry s.mem t i := by
      rw [hentries i hi512, if_neg (lt_irrefl i)]
    simp only [hentry]
    cases hp : (readEntry s.mem t i).present with
    | false =>
      have hnone : branch slots c n t i = ∅ := branch_of_none (presentLinks_of_absent n hp)
      refine post_ok.mpr ⟨?_, hentries.skip hp⟩
      rw [branches_range_succ, hnone, union_empty]
      exact hu
    | true =>
      have hc : c n t i = some (readEntry s.mem t i).frame := presentLinks_of_present n hp
      have ht : t ∉ branch slots c n t i := hd.not_mem_branch hi
      rw [branch_of_some hc] at ht
      obtain ⟨hagree, hlt, hbelow⟩ := Released.child hd hi hc hu hb Subset.rfl
      have hchild := ih _ u ((hd.child hi hc).congr hagree) hbelow
      rw [below_congr hagree, footprint_congr hagree] at hchild
      apply hchild.bind
      rintro v ⟨hv, -⟩
      have hvt : ClearedBelow s.mem t i v.mem := hentries.congr (hv.mem t ht)
      rw [footprint_eq, mem_insert, not_or] at ht
      -- the reset of entry `i` stays inside `t`, which is in the written set already
      let m := writeEntry v.mem t i { readEntry v.mem t i with present := false, addr := 0 }
      have hreset := (hv.mono (subset_insert t _)).write (m := m) (by
        intro f hf
        rw [mem_insert, not_or] at hf
        exact (writeEntry_frameEq hi512 hf.1).symm)
      apply (pmmFree_one_post (s := ⟨m, v.pmm⟩) (hlt.trans_eq hv.pages.symm)).mono_ok
      intro w hw
      refine ⟨(Released.subtree hd hi hc hu hreset hw).mono ?_, ?_⟩
      · rw [branches_range_succ, branch_of_some hc, footprint_eq]
        intro x
        simp only [mem_union, mem_insert, mem_singleton]
        tauto
      · apply (hvt.reset hi512 hp).congr
        exact hw.mem t (by simpa using ht.1)

end GarnOS
