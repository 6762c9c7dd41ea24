import GarnOS.Paging.Mmap
import GarnOS.Paging.Syscalls

/-! `sys_munmap` on the pages of a `sys_mmap` call: each is translated, its frame is freed and its
entry is erased, one page after the other. What it returns does not say which of them. -/
namespace GarnOS
open ByteMemory Outcome Finset PageTableEntry Walks RadixTree Nat

/-- The `n` pages from `v` on are mapped to the frames `F 0`, …, `F (n - 1)`. These are in use, all
different, none of them is frame 0 and none a table. -/
structure Held (s : Machine) (pt v n : ℕ) (flags : BitVec 32) (F : ℕ → ℕ) : Prop where
  tree : PageTree s pt
  pages : ∀ j < n, ∃ e, pageEntry s.mem pt (v + j * 4096) = mappedEntry (F j * 4096) flags e
  used : ∀ j < n, F j ∈ s.pmm.setBits
  inj : ∀ i < n, ∀ j < n, F i = F j → i = j
  apart : ∀ j < n, ¬IsTable s.mem pt (F j)
  nonzero : ∀ j < n, F j ≠ 0

structure Undone (s : Machine) (pt v n : ℕ) (F : ℕ → ℕ) (s' : Machine) : Prop where
  tree : PageTree s' pt
  gone : ∀ w, Visited v n w → (pageEntry s'.mem pt w).vacant = true
  others : ∀ w, ¬Visited v n w → pageEntry s'.mem pt w = pageEntry s.mem pt w
  setBits : ∀ x, x ∈ s'.pmm.setBits ↔ x ∈ s.pmm.setBits ∧ ∀ j < n, F j ≠ x

section Pages
variable {s s' : Machine} {pt v n f : ℕ} {flags : BitVec 32} {F : ℕ → ℕ} {e : PageTableEntry}

theorem visited_cons {w : ℕ} :
    Visited v (n + 1) w ↔ pageNumber w = pageNumber v ∨ Visited (v + 4096) n w := by
  have hshift : ∀ i, v + (i + 1) * 4096 = v + 4096 + i * 4096 := fun i => by omega
  unfold Visited
  rw [exists_lt_succ_left]
  simp [hshift]

theorem unmappedEntry_vacant (e : PageTableEntry) : (unmappedEntry e).vacant = true := by
  simp [unmappedEntry, vacant]

theorem vacant_facts (h : e.vacant = true) : e.present = false ∧ e.phys = 0 := by
  refine ⟨?_, if_pos h⟩
  rw [vacant, Bool.and_eq_true, Bool.not_eq_true'] at h
  exact h.1

theorem PageTree.freeUnmap (h : PageTree s pt) (hv : (pageEntry s.mem pt v).vacant = false)
    (hf : f ∈ s.pmm.setBits) (hapart : ¬IsTable s.mem pt f) :
    ∃ s', (do let s ← pmmFree s (f * 4096) 1
              vmmUnmap s pt v) = .ok s' ∧ PageTree s' pt ∧
      (∀ w, pageEntry s'.mem pt w = if pageNumber w = pageNumber v then
        unmappedEntry (pageEntry s.mem pt w) else pageEntry s.mem pt w) ∧
      s'.pmm.setBits = s.pmm.setBits \ {f} ∧ ∀ x, IsTable s'.mem pt x → IsTable s.mem pt x := by
  cases ht : follow (child s.mem) pt (tablePath v) with
  | none =>
    rw [pageEntry, entryAt_of_none ht, empty_vacant] at hv
    cases hv
  | some t =>
    obtain ⟨s', hcall, htree, hrel, hfollow, hentries⟩ := (h.toTableTree.freeUnmap
      (allPaths_pagePath v) hf (fun p hp hlen hx => hapart ⟨p, hp, hlen, hx⟩) ht).returns
    refine ⟨s', hcall, ⟨htree, fun p i hp hlen => ?_⟩, fun w => ?_, hrel.setBits, ?_⟩
    · rw [hentries p i hp (by omega), if_neg]
      · exact h.clean p i hp hlen
      · intro hsame
        have hlength : p.length + 1 = 4 := by simpa [pagePath] using congrArg List.length hsame
        omega
    · refine (hentries (tablePath w) _ (allPaths_pagePath w) (Nat.le_refl 3)).trans ?_
      simp only [← pagePath_eq, pagePath_eq_iff]
      rfl
    · rintro x ⟨p, hp, hlen, hx⟩
      exact ⟨p, hp, hlen, hfollow p hp hlen ▸ hx⟩

theorem Held.physAddr (h : Held s pt v (n + 1) flags F) (hflags : flags &&& VMM_PRESENT ≠ 0) :
    vmmVirtToPhys s.mem pt v = F 0 * 4096 := by
  obtain ⟨e, he⟩ := h.pages 0 (Nat.succ_pos n)
  have hlt := Pmm.lt_pages_of_test (Pmm.mem_setBits.mp (h.used 0 (Nat.succ_pos n)))
  rw [Nat.zero_mul, Nat.add_zero] at he
  rw [vmmVirtToPhys, h.tree.virtToPhys, he, phys_mappedEntry hflags,
    Nat.mul_div_cancel (F 0) (by decide), h.tree.addressable.frame_mod hlt]

theorem Held.munmapPages (hflags : flags &&& VMM_PRESENT ≠ 0) (h : Held s pt v n flags F)
    (hv : v + n * 4096 ≤ 2 ^ 47) :
    ∃ z s', munmapPages pt n v s = .ok (z, s') ∧ Undone s pt v n F s' := by
  induction n generalizing s v F with
  | zero =>
    refine ⟨_, s, rfl, h.tree, fun w hw => absurd hw not_visited_zero, fun w _ => rfl, fun x => ?_⟩
    exact ⟨fun hx => ⟨hx, fun j hj => absurd hj (not_lt_zero j)⟩, And.left⟩
  | succ n ih =>
    have hphys := h.physAddr hflags
    have hne : F 0 * 4096 ≠ 0 := mul_ne_zero (h.nonzero 0 (succ_pos n)) (by decide)
    have hvacant : (pageEntry s.mem pt v).vacant = false := by
      obtain ⟨e, he⟩ := h.pages 0 (succ_pos n)
      rw [zero_mul, add_zero] at he
      rw [he]
      exact vacant_mappedEntry hflags
    obtain ⟨w, hfree, h', hpages, hset, htables⟩ :=
      h.tree.freeUnmap hvacant (h.used 0 (succ_pos n)) (h.apart 0 (succ_pos n))
    have hnumber : ∀ j < n, pageNumber (v + 4096 + j * 4096) ≠ pageNumber v := by
      intro j hj
      unfold pageNumber
      omega
    have hrest : Held w pt (v + 4096) n flags fun j => F (j + 1) := by
      refine ⟨h', fun j hj => ?_, fun j hj => ?_, fun i hi j hj hij => ?_, fun j hj htable => ?_,
        fun j hj => h.nonzero (j + 1) (by omega)⟩
      · obtain ⟨e, he⟩ := h.pages (j + 1) (by omega)
        refine ⟨e, ?_⟩
        rw [hpages, if_neg (hnumber j hj), ← he]
        congr 1
        omega
      · rw [hset, mem_sdiff, mem_singleton]
        refine ⟨h.used (j + 1) (by omega), fun heq => ?_⟩
        exact absurd (h.inj _ (by omega) _ (by omega) heq) (succ_ne_zero j)
      · exact succ.inj (h.inj _ (by omega) _ (by omega) hij)
      · exact h.apart (j + 1) (by omega) (htables _ htable)
    obtain ⟨z, s', hcall, hundone⟩ := ih hrest (by omega)
    refine ⟨z, s', ?_, hundone.tree, fun w hw => ?_, fun w hw => ?_, fun x => ?_⟩
    · have hnext : (v + PAGE_SIZE) % 2 ^ 64 = v + 4096 := by
        unfold PAGE_SIZE
        omega
      rw [GarnOS.munmapPages, hphys, if_neg hne, hnext, ← bind_assoc, hfree]
      exact hcall
    · by_cases hlater : Visited (v + 4096) n w
      · exact hundone.gone w hlater
      · have hfirst := (visited_cons.mp hw).resolve_right hlater
        rw [hundone.others w hlater, hpages, if_pos hfirst]
        exact unmappedEntry_vacant _
    · rw [visited_cons, not_or] at hw
      rw [hundone.others w hw.2, hpages, if_neg hw.1]
    · rw [hundone.setBits, hset, mem_sdiff, mem_singleton, forall_lt_succ_left, and_assoc,
        eq_comm]

theorem Backed.held {T : Finset ℕ} (h : Backed s pt v n flags F T s') (hold : PageTree s pt)
    (hzero : 0 ∈ s.pmm.setBits) (hn : n ≤ 2 ^ 36) : Held s' pt v n flags F := by
  refine ⟨h.tree, fun j hj => h.page_at hn hj, fun j hj => (h.frame_lt hj).1, h.inj,
    fun j hj htable => ?_, fun j hj heq => ?_⟩
  · rcases h.tables _ htable with htable | htable
    · exact h.fresh hj (hold.isTable_used htable)
    · exact h.apart j hj htable
  · exact h.fresh hj (heq ▸ hzero)

theorem Undone.lookups {s'' : Machine} {T : Finset ℕ} (hundone : Undone s' pt v n F s'')
    (hbacked : Backed s pt v n flags F T s') (h : PageTree s pt)
    (hfree : ∀ j < n, vmmIsPageFree s.mem pt (v + j * 4096) = true) (w : ℕ) :
    vmmVirtToPhys s''.mem pt w = vmmVirtToPhys s.mem pt w ∧
      vmmIsPageFree s''.mem pt w = vmmIsPageFree s.mem pt w ∧
      (Present s''.mem pt w ↔ Present s.mem pt w) := by
  rw [vmmVirtToPhys, vmmVirtToPhys, vmmIsPageFree, vmmIsPageFree, hundone.tree.virtToPhys,
    h.virtToPhys, hundone.tree.isPageFree, h.isPageFree, present_iff, present_iff]
  by_cases hw : Visited v n w
  · have hnow := hundone.gone w hw
    have hbefore : (pageEntry s.mem pt w).vacant = true := by
      obtain ⟨j, hj, hnumber⟩ := hw
      rw [pageEntry_congr hnumber, ← h.isPageFree]
      exact hfree j hj
    rw [(vacant_facts hnow).1, (vacant_facts hnow).2, hnow, (vacant_facts hbefore).1,
      (vacant_facts hbefore).2, hbefore]
    exact ⟨rfl, rfl, Iff.rfl⟩
  · rw [hundone.others w hw, hbacked.others w hw]
    exact ⟨rfl, rfl, Iff.rfl⟩

end Pages

/-- `sys_munmap` takes back what `sys_mmap` has mapped. All lookups are as before the two calls, and
of the frames in between exactly those of the pages are free again. -/
theorem munmap_undoes_mmap {s s' : Machine} {pt : ℕ} (h : PageTree s pt)
    (hzero : 0 ∈ s.pmm.setBits) {addr length : BitVec 64} (haddr : addr.toNat % 4096 = 0)
    (hpos : 0 < length.toNat) (hlength : length.toNat % 4096 = 0) {prot flags : BitVec 32} {a : ℕ}
    (hmmap : sysMmap s pt addr length prot flags = .ok ((a : ℤ), s')) :
    ∃ r, sysMunmap s' pt (BitVec.ofNat 64 a) length = .ok r ∧
      (∀ w, vmmVirtToPhys r.2.mem pt w = vmmVirtToPhys s.mem pt w ∧
        vmmIsPageFree r.2.mem pt w = vmmIsPageFree s.mem pt w ∧
        (Present r.2.mem pt w ↔ Present s.mem pt w)) ∧
      (∀ x, x ∈ r.2.pmm.setBits ↔ x ∈ s'.pmm.setBits ∧
        ¬∃ j < length.toNat / 4096, vmmVirtToPhys s'.mem pt (a + j * 4096) = x * 4096) ∧
      s.pmm.setBits ⊆ r.2.pmm.setBits := by
  obtain ⟨c, F, T, hfirst, hn, rfl, hbacked⟩ := sysMmap_returned h hmmap
  obtain ⟨hshort, hbelow⟩ := run_below hfirst
  have hend := (mmapEnd_spec flags).2
  have hlast := hbelow (length.toNat / 4096 - 1) (by omega)
  have hhint := (mmapHint_mod addr).mpr haddr
  have hpresent := mmapFlags_present prot
  have hheld := hbacked.held h hzero (by omega)
  obtain ⟨z, s'', hcall, hundone⟩ := hheld.munmapPages hpresent (by omega)
  refine ⟨(z, s''), ?_, hundone.lookups hbacked h fun j hj => run_free hfirst hj, fun x => ?_,
    fun x hx => ?_⟩
  · have hne : length ≠ 0 := by
      rintro rfl
      exact absurd hpos (lt_irrefl 0)
    have htoNat : (BitVec.ofNat 64 (mmapHint addr + c * 4096)).toNat =
        mmapHint addr + c * 4096 := by
      rw [BitVec.toNat_ofNat]
      omega
    rw [sysMunmap, if_neg hne, htoNat, if_neg]
    · exact hcall
    · unfold VMM_USER_END PAGE_SIZE
      omega
  · rw [hundone.setBits, and_congr_right_iff]
    intro _
    rw [not_exists]
    apply forall_congr'
    intro j
    rw [not_and]
    apply imp_congr_right
    intro hj
    rw [hbacked.virtToPhys (by omega) hpresent hj]
    omega
  · rw [hundone.setBits]
    refine ⟨hbacked.acq.keeps hx, fun j hj heq => ?_⟩
    exact hbacked.fresh hj (heq ▸ hx)

theorem munmap_undoes_mmap_page :
    (PageTree emptyRoot 1 ∧ 0 ∈ emptyRoot.pmm.setBits ∧ (0 : BitVec 64).toNat % 4096 = 0 ∧
      0 < (0x1000 : BitVec 64).toNat ∧ (0x1000 : BitVec 64).toNat % 4096 = 0) ∧
    ∃ s', sysMmap emptyRoot 1 0 0x1000 PROT_WRITE (MAP_PRIVATE ||| MAP_ANONYMOUS) =
        .ok (0x1000, s') ∧
      ∃ r, sysMunmap s' 1 (BitVec.ofNat 64 0x1000) 0x1000 = .ok r ∧
        vmmVirtToPhys r.2.mem 1 0x1000 = 0 := by
  refine ⟨⟨pageTree_emptyRoot, by decide, by decide, by decide, by decide⟩, ?_⟩
  obtain ⟨s', hcall⟩ := sysMmap_emptyRoot PROT_WRITE
  obtain ⟨r, hundo, hpages, -⟩ := munmap_undoes_mmap pageTree_emptyRoot (by decide) (by decide)
    (by decide) (by decide) hcall
  refine ⟨s', hcall, r, hundo, ?_⟩
  rw [(hpages 0x1000).1, vmmVirtToPhys, pageTree_emptyRoot.virtToPhys, pageEntry_emptyRoot, empty_phys]

/-- Every page of `[addr, addr + length)` was mapped, is no longer, and its frame is free. -/
def RangeReleased (s : Machine) (pt addr length : ℕ) (s' : Machine) : Prop :=
  ∀ v, addr ≤ v → v < addr + length → vmmIsPageFree s.mem pt v = false ∧
    vmmIsPageFree s'.mem pt v = true ∧ vmmVirtToPhys s.mem pt v / 4096 ∉ s'.pmm.setBits

/-- The tables of the process and the bitmap are as before. -/
def PagingKept (s : Machine) (pt : ℕ) (s' : Machine) : Prop :=
  (∀ x ∈ tables slots (heldLinks s.mem) 4 pt, FrameEq s.mem s'.mem x) ∧
    s'.pmm.bitmap = s.pmm.bitmap

/-- What the result of `sys_munmap` should say: 0 for a range that is gone, an error only if nothing
has changed. -/
structure MunmapReports (s : Machine) (pt addr length : ℕ) (r : ℤ × Machine) : Prop where
  complete : RangeReleased s pt addr length r.2 → r.1 = 0
  failed : r.1 < 0 → PagingKept s pt r.2

section Reports
variable {s s' : Machine} {pt v n length : ℕ} {R : Finset ℕ} {z : ℤ}

theorem munmapPages_negative {r : ℤ × Machine} (h : munmapPages pt n v s = .ok r) : r.1 < 0 := by
  induction n generalizing s v with
  | zero =>
    rw [← Except.ok.inj h]
    exact (by decide : -ENOMEM < 0)
  | succ n ih =>
    rw [munmapPages] at h
    split at h
    · rw [← Except.ok.inj h]
      exact (by decide : -EINVAL < 0)
    · obtain ⟨u, -, hrest⟩ := bind_eq_ok.mp h
      obtain ⟨w, -, hrest⟩ := bind_eq_ok.mp hrest
      exact ih hrest

theorem munmapReports_refl (hpos : 0 < length) : MunmapReports s pt v length (z, s) where
  complete hall := by
    obtain ⟨hmapped, hfree, -⟩ := hall v le_rfl (by omega)
    rw [hmapped] at hfree
    exact absurd hfree (by decide)
  failed _ := ⟨fun x _ => FrameEq.refl s.mem x, rfl⟩

theorem Shrunk.not_pagingKept (h : Shrunk s pt R s') (hready : SpaceReady s pt) {f : ℕ}
    (hf : f ∈ R) : ¬PagingKept s pt s' := by
  rintro ⟨-, hbitmap⟩
  have hbits := h.rel.setBits
  rw [Pmm.setBits_congr hbitmap] at hbits
  have hused : f ∈ s.pmm.setBits := hready.used (h.owned hf)
  rw [hbits] at hused
  exact (mem_sdiff.mp hused).2 hf

end Reports

/-- `sys_munmap` always returns an error. It is one that tells the truth exactly if the first page is
a hole or the length is less than a page, so that nothing was done. -/
theorem munmap_reports_iff {s : Machine} {pt : ℕ} (h : SpaceReady s pt) {addr length : BitVec 64}
    (haddr : addr.toNat % 4096 = 0) (hpos : 0 < length.toNat)
    (hrange : addr.toNat + length.toNat ≤ VMM_USER_END) :
    ∃ r, sysMunmap s pt addr length = .ok r ∧ r.1 < 0 ∧
      (MunmapReports s pt addr.toNat length.toNat r ↔
        length.toNat < 4096 ∨ vmmVirtToPhys s.mem pt addr.toNat = 0) := by
  have hcall : sysMunmap s pt addr length =
      munmapPages pt (length.toNat / 4096) addr.toNat s := by
    have hne : length ≠ 0 := by
      rintro rfl
      exact absurd hpos (lt_irrefl 0)
    rw [sysMunmap, if_neg hne, if_neg]
    · rfl
    · unfold PAGE_SIZE
      omega
  have hpages : addr.toNat + length.toNat / 4096 * PAGE_SIZE ≤ VMM_USER_END := by
    unfold PAGE_SIZE
    omega
  rw [hcall]
  obtain ⟨r, hr, R, hshrunk, hfirst⟩ := (munmapPages_post _ h hpages).returns
  have hneg := munmapPages_negative hr
  refine ⟨r, hr, hneg, fun hreports => ?_, fun hsmall => ?_⟩
  · by_contra hnot
    rw [not_or] at hnot
    exact hshrunk.not_pagingKept h (hfirst (by omega) hnot.2) (hreports.failed hneg)
  · -- in both cases the loop leaves the machine as it is
    suffices hsame : ∃ z, r = (z, s) by
      obtain ⟨z, rfl⟩ := hsame
      exact munmapReports_refl hpos
    rcases hsmall with hsmall | hhole
    · rw [div_eq_of_lt hsmall] at hr
      exact ⟨_, (Except.ok.inj hr).symm⟩
    · cases hn : length.toNat / 4096 with
      | zero =>
        rw [hn] at hr
        exact ⟨_, (Except.ok.inj hr).symm⟩
      | succ n =>
        rw [hn, munmapPages, hhole, if_pos rfl] at hr
        exact ⟨_, (Except.ok.inj hr).symm⟩

theorem onePage_virtToPhys : vmmVirtToPhys onePage.mem 1 0 = 0x5000 ∧
    vmmVirtToPhys onePage.mem 1 0x1000 = 0 := by
  decide

/-- The page behind the only one is a hole. -/
theorem munmap_reports_hole : (SpaceReady onePage 1 ∧ (0x1000 : BitVec 64).toNat % 4096 = 0) ∧
    ∃ r, sysMunmap onePage 1 0x1000 0x1000 = .ok r ∧ MunmapReports onePage 1 0x1000 0x1000 r := by
  refine ⟨⟨onePage_ready, by decide⟩, ?_⟩
  obtain ⟨r, hcall, -, hiff⟩ := @munmap_reports_iff onePage 1 onePage_ready 0x1000 0x1000
    (by decide) (by decide) (by decide)
  exact ⟨r, hcall, hiff.mpr (Or.inr onePage_virtToPhys.2)⟩

/-- The only page is unmapped and its frame is freed, and the call returns `-ENOMEM`. -/
theorem munmap_reports_failure : ∃ r, sysMunmap onePage 1 0 0x1000 = .ok r ∧ r.1 = -ENOMEM ∧
    RangeReleased onePage 1 0 0x1000 r.2 ∧ ¬PagingKept onePage 1 r.2 := by
  have hfree := @pmmFree_one onePage 5 (by decide)
  have hpage : ∀ (m : Mem) v, v < 0x1000 → vmmIsPageFree m 1 v = vmmIsPageFree m 1 0 ∧
      vmmVirtToPhys m 1 v = vmmVirtToPhys m 1 0 := by
    intro m v hv
    have hindex : mmIndexer v = mmIndexer 0 := by
      unfold mmIndexer
      rw [show v / 4096 = 0 / 4096 by omega]
    simp [vmmIsPageFree, vmmVirtToPhys, archMmIsPageFree, archMmVirtToPhys, hindex]
  let m := fill onePage.mem (5 * 4096) 4096 0xff
  refine ⟨(-ENOMEM, ⟨writeEntry m 4 0 (unmappedEntry (readEntry m 4 0)), onePage.pmm.clear 5⟩), ?_,
    rfl, fun v _ hv => ?_, ?_⟩
  · have hphys : vmmVirtToPhys onePage.mem 1 (0 : BitVec 64).toNat = 5 * 4096 :=
      onePage_virtToPhys.1
    have hunmap : vmmUnmap ⟨fill onePage.mem (5 * 4096) 4096 0xff, onePage.pmm.clear 5⟩ 1
        (0 : BitVec 64).toNat = .ok _ :=
      archMmUnmap_of_unmapAlong (unmapAlong_of_follow (p := [0, 0, 0]) (t := 4) (by decide))
    rw [sysMunmap, if_neg (by decide), if_neg (by decide),
      show (0x1000 : BitVec 64).toNat / PAGE_SIZE = 0 + 1 from rfl, munmapPages, hphys,
      if_neg (by decide), hfree, ok_bind, hunmap]
    rfl
  · rw [(hpage _ v (by omega)).1, (hpage _ v (by omega)).1, (hpage _ v (by omega)).2]
    decide
  · rintro ⟨-, hbitmap⟩
    exact absurd hbitmap (by decide)

end GarnOS
