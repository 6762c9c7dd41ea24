import GarnOS.Paging.KernelMap

/-! An address space as a map from page numbers to page entries. `vmm_map` and `vmm_unmap` change
this map at one page, and the lookups read it. -/
namespace GarnOS
open ByteMemory Outcome Finset PageTableEntry Walks List

def allPaths : IndexPaths where
  Has p := ∀ j ∈ p, j < 512
  init h j hj := h j (List.mem_append_left _ hj)
  bound h := h

/-- A four-level page-table tree. Its tables are different frames in use, and an absent entry of one
of the three upper levels holds no address. -/
structure PageTree (s : Machine) (pt : ℕ) : Prop extends TableTree allPaths s pt where
  clean : ∀ p i, allPaths.Has (p ++ [i]) → p.length ≤ 2 →
    (entryAt s.mem pt p i).present = false → (entryAt s.mem pt p i).addr = 0

def IsTable (m : Mem) (pt x : ℕ) : Prop :=
  ∃ p, allPaths.Has p ∧ p.length ≤ 3 ∧ follow (child m) pt p = some x

def pageNumber (v : ℕ) : ℕ := v / 4096 % 2 ^ 36

/-- The page entry for an address; without a page table it is empty. -/
def pageEntry (m : Mem) (pt v : ℕ) : PageTableEntry :=
  entryAt m pt (tablePath v) (v / 4096 % 512)

section Numbers
variable {v w : ℕ}

theorem allPaths_pagePath (v : ℕ) : allPaths.Has (pagePath v) := by
  intro j hj
  simp only [pagePath, mmIndexer, List.mem_cons, List.not_mem_nil, or_false] at hj
  omega

theorem pagePath_eq_iff : pagePath v = pagePath w ↔ pageNumber v = pageNumber w := by
  simp only [pagePath, mmIndexer, cons.injEq, and_true]
  unfold pageNumber
  omega

theorem pageEntry_congr (h : pageNumber v = pageNumber w) (m : Mem) (pt : ℕ) :
    pageEntry m pt v = pageEntry m pt w := by
  have hpath := pagePath_eq_iff.mpr h
  rw [pagePath_eq, pagePath_eq] at hpath
  obtain ⟨htables, hlast⟩ := append_inj' hpath rfl
  rw [pageEntry, pageEntry, htables, cons.inj hlast |>.1]

end Numbers

section Lookup
variable {m : Mem} {s : Machine} {pt v t i j : ℕ} {p : List ℕ}

theorem PageTree.foundEntry (h : PageTree s pt) (v : ℕ) :
    foundEntry s.mem (pagePath v) pt = pageEntry s.mem pt v :=
  foundEntry_pagePath (allPaths_pagePath v) h.clean

theorem PageTree.isPageFree (h : PageTree s pt) (v : ℕ) :
    archMmIsPageFree s.mem pt v = (pageEntry s.mem pt v).vacant := by
  rw [archMmIsPageFree_eq_found, h.foundEntry]

theorem PageTree.virtToPhys (h : PageTree s pt) (v : ℕ) :
    archMmVirtToPhys s.mem pt v = (pageEntry s.mem pt v).phys := by
  rw [archMmVirtToPhys_eq_found, h.foundEntry]

theorem pageTree_of_empty (haddr : s.pmm.Addressable) (hroot : pt ∈ s.pmm.setBits)
    (hzero : ∀ i < 512, readEntry s.mem pt i = PageTableEntry.empty) :
    PageTree s pt ∧ ∀ w, pageEntry s.mem pt w = PageTableEntry.empty := by
  have hfollow : ∀ q, allPaths.Has q → q ≠ [] → follow (child s.mem) pt q = none := by
    intro q hq hne
    cases q with
    | nil => exact absurd rfl hne
    | cons i q =>
      rw [follow, child, hzero i (hq i mem_cons_self), empty_present]
      rfl
  have hnil : ∀ q t, allPaths.Has q → follow (child s.mem) pt q = some t → q = [] ∧ pt = t := by
    intro q t hq ht
    by_cases hne : q = []
    · subst hne
      exact ⟨rfl, Option.some.inj ht⟩
    · rw [hfollow q hq hne] at ht
      cases ht
  refine ⟨⟨⟨haddr, fun p t hp _ ht => (hnil p t hp ht).2 ▸ hroot, ?_⟩, fun p i hp _ _ => ?_⟩, ?_⟩
  · exact fun p q t hp hq ht ht' => (hnil p t hp.1 ht).1.trans (hnil q t hq.1 ht').1.symm
  · by_cases hne : p = []
    · subst hne
      rw [entryAt_nil, hzero i (IndexPaths.last hp), empty_addr]
    · rw [entryAt_of_none (hfollow p (allPaths.init hp) hne), empty_addr]
  · exact fun w => entryAt_of_none (hfollow _ (allPaths.init (allPaths_pagePath w))
      (by simp [tablePath, pagePath])) _

end Lookup

section Change
variable {s s' : Machine} {pt v : ℕ}

section
variable (h : PageTree s pt)
include h

/-- `vmm_map` changes the map at the page of `v` and adds at most three tables. -/
theorem PageTree.map_post (physAddr v : ℕ) (flags : BitVec 32) : Post (vmmMap s pt physAddr v flags)
      (fun s' => PageTree s' pt ∧ (∃ A : Finset ℕ, A.card ≤ 3 ∧ TreeGrown allPaths pt s A True s' ∧
          ∀ f ∈ A, ∃ q, q <+: tablePath v ∧ follow (child s'.mem) pt q = some f) ∧
        ∀ w, pageEntry s'.mem pt w = if pageNumber w = pageNumber v then
          mappedEntry physAddr flags (pageEntry s.mem pt w) else pageEntry s.mem pt w)
      (fun e => e = outOfMemory ∧ s.pmm.clearBits.card < 3) := by
  refine (h.toTableTree.vmmMap_post (allPaths_pagePath v) physAddr flags).mono_ok ?_
  rintro s' ⟨A, hA, hgrown, hhung, hleaves, hlinks, -⟩
  have hroot := (TreeGrown.refl h.toTableTree True).trans hgrown fun _ => trivial
  rw [empty_union] at hroot
  refine ⟨⟨hgrown.tree, fun p i hp hlen habsent => ?_⟩, ⟨A, hA, hroot, hhung⟩, fun w => ?_⟩
  · obtain heq | ⟨hpresent, -⟩ := hlinks p i hp hlen
    · rw [heq] at habsent ⊢
      exact h.clean p i hp hlen habsent
    · rw [hpresent] at habsent
      cases habsent
  · refine (hleaves (tablePath w) _ (allPaths_pagePath w) rfl).trans ?_
    simp only [← pagePath_eq, pagePath_eq_iff]
    rfl

theorem PageTree.isTable_used {x : ℕ} (hx : IsTable s.mem pt x) : x ∈ s.pmm.setBits := by
  obtain ⟨p, hp, hlen, hfollow⟩ := hx
  exact h.used p x hp hlen hfollow

theorem PageTree.congr (haddr : s'.pmm.Addressable)
    (hkept : ∀ x, IsTable s.mem pt x → FrameEq s.mem s'.mem x ∧ x ∈ s'.pmm.setBits) :
    PageTree s' pt ∧ (∀ x, IsTable s'.mem pt x ↔ IsTable s.mem pt x) ∧
      ∀ w, pageEntry s'.mem pt w = pageEntry s.mem pt w := by
  obtain ⟨htree, hfollow, hentries⟩ := h.toTableTree.congr haddr
    fun p t hp hlen ht => hkept t ⟨p, hp, hlen, ht⟩
  refine ⟨⟨htree, fun p i hp hlen => ?_⟩, fun x => ?_, fun w => ?_⟩
  · rw [hentries p i hp (by omega)]
    exact h.clean p i hp hlen
  · refine exists_congr fun p => and_congr_right fun hp => and_congr_right fun hlen => ?_
    rw [hfollow p hp hlen]
  · exact hentries (tablePath w) _ (allPaths_pagePath w) (Nat.le_refl 3)

end

theorem TreeGrown.isTable {A : Finset ℕ} {R : Prop} (h : TreeGrown allPaths pt s A R s') {x : ℕ}
    (hx : IsTable s'.mem pt x) : IsTable s.mem pt x ∨ x ∈ A := by
  obtain ⟨p, hp, hlen, hfollow⟩ := hx
  obtain heq | ⟨-, t, ht, heq⟩ := h.tables p hp hlen
  · exact .inl ⟨p, hp, hlen, heq ▸ hfollow⟩
  · cases hfollow.symm.trans heq
    exact .inr ht

end Change

section Mapped
variable {physAddr : ℕ} {flags : BitVec 32} {e : PageTableEntry}

theorem vacant_mappedEntry (hflags : flags &&& VMM_PRESENT ≠ 0) :
    (mappedEntry physAddr flags e).vacant = false := by
  have hpresent : (mappedEntry physAddr flags e).present = true := bne_iff_ne.mpr hflags
  rw [vacant, hpresent]
  rfl

theorem phys_mappedEntry (hflags : flags &&& VMM_PRESENT ≠ 0) :
    (mappedEntry physAddr flags e).phys = physAddr / 4096 * 4096 % 2 ^ 51 := by
  have hframe : (mappedEntry physAddr flags e).frame = physAddr / 4096 % 2 ^ 51 :=
    BitVec.toNat_ofNat _ _
  rw [phys, vacant_mappedEntry hflags, hframe, if_neg Bool.false_ne_true]
  omega

/-- The lookup of a page that was mapped returns the address modulo `2 ^ 51`: it shifts the field of 51
bits before it widens it. -/
theorem PageTree.virtToPhys_mapped {s s' : Machine} {pt v : ℕ} (h : PageTree s pt)
    (h' : PageTree s' pt) (hflags : flags &&& VMM_PRESENT ≠ 0)
    (hpages : ∀ w, pageEntry s'.mem pt w = if pageNumber w = pageNumber v then
      mappedEntry physAddr flags (pageEntry s.mem pt w) else pageEntry s.mem pt w) (w : ℕ) :
    archMmVirtToPhys s'.mem pt w = if pageNumber w = pageNumber v then
      physAddr / 4096 * 4096 % 2 ^ 51 else archMmVirtToPhys s.mem pt w := by
  rw [h'.virtToPhys, h.virtToPhys, hpages w]
  split
  · exact phys_mappedEntry hflags
  · rfl

end Mapped

/-- `arch_mm_map` changes the translation of one page and of no other one. -/
theorem arch_mm_map_exact {s : Machine} {pt : ℕ} (h : PageTree s pt) {physAddr : ℕ}
    (haligned : physAddr % 4096 = 0) (hphys : physAddr < 2 ^ 51) (virtAddr : ℕ) {flags : BitVec 32}
    (hflags : flags &&& VMM_PRESENT ≠ 0) :
    Post (archMmMap s pt physAddr virtAddr flags)
      (fun s' =>
        (∀ w, archMmVirtToPhys s'.mem pt w =
          if pageNumber w = pageNumber virtAddr then physAddr else archMmVirtToPhys s.mem pt w) ∧
        (∀ w, archMmIsPageFree s'.mem pt w =
          if pageNumber w = pageNumber virtAddr then false else archMmIsPageFree s.mem pt w) ∧
        PageTree s' pt ∧
        ∃ A : Finset ℕ, A.card ≤ 3 ∧ Disjoint s.pmm.setBits A ∧
          s'.pmm.setBits = s.pmm.setBits ∪ A ∧
          ∀ x, IsTable s'.mem pt x → IsTable s.mem pt x ∨ x ∈ A)
      (fun e => e = outOfMemory ∧ s.pmm.clearBits.card < 3) := by
  refine (h.map_post physAddr virtAddr flags).mono_ok ?_
  rintro s' ⟨h', ⟨A, hA, hgrown, -⟩, hpages⟩
  refine ⟨fun w => ?_, fun w => ?_, h', A, hA, hgrown.acq.fresh, hgrown.acq.setBits,
    fun x => hgrown.isTable⟩
  · have haddress : physAddr / 4096 * 4096 % 2 ^ 51 = physAddr := by omega
    rw [h.virtToPhys_mapped h' hflags hpages w, haddress]
  · rw [h'.isPageFree, h.isPageFree, hpages w]
    split
    · exact vacant_mappedEntry hflags
    · rfl

theorem pageTree_emptyRoot : PageTree emptyRoot 1 :=
  (pageTree_of_empty kernelTables_emptyRoot.addressable (by decide) fun i _ => readEntry_zero 1 i).1

theorem pageEntry_emptyRoot (v : ℕ) : pageEntry emptyRoot.mem 1 v = PageTableEntry.empty :=
  (pageTree_of_empty kernelTables_emptyRoot.addressable (by decide)
    fun i _ => readEntry_zero 1 i).2 v

theorem arch_mm_map_exact_emptyRoot :
    (PageTree emptyRoot 1 ∧ 0x5000 % 4096 = 0 ∧ 0x5000 < 2 ^ 51 ∧ VMM_PRESENT &&& VMM_PRESENT ≠ 0) ∧
    ∃ s', archMmMap emptyRoot 1 0x5000 0x400000 VMM_PRESENT = .ok s' ∧
      archMmVirtToPhys s'.mem 1 0x400000 = 0x5000 := by
  refine ⟨⟨pageTree_emptyRoot, by decide, by decide, by decide⟩, ?_⟩
  have hpost : Post (archMmMap emptyRoot 1 0x5000 0x400000 VMM_PRESENT) _ _ :=
    arch_mm_map_exact pageTree_emptyRoot (by decide) (by decide) 0x400000 (by decide)
  obtain ⟨s', hs', hphys, -⟩ :=
    hpost.returns_of_not fun e he => absurd he.2 (by decide)
  exact ⟨s', hs', (hphys 0x400000).trans (if_pos rfl)⟩

/-- The address field has 51 bits, so bit 63 of a physical address is lost. -/
theorem arch_mm_map_loses_bit_63 : ∃ s', archMmMap emptyRoot 1 (2 ^ 63) 0x1000 VMM_PRESENT = .ok s' ∧
    archMmVirtToPhys s'.mem 1 0x1000 ≠ 2 ^ 63 := by
  have hpost := pageTree_emptyRoot.map_post (2 ^ 63) 0x1000 VMM_PRESENT
  obtain ⟨s', hs', h', -, hpages⟩ :=
    hpost.returns_of_not fun e he => absurd he.2 (by decide)
  refine ⟨s', hs', ?_⟩
  rw [pageTree_emptyRoot.virtToPhys_mapped h' (by decide) hpages, if_pos rfl]
  decide

end GarnOS
