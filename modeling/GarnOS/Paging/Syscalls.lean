import GarnOS.Paging.Map
import GarnOS.Paging.MmapSearch

/-! What the area-building calls, `sys_mmap` and `sys_munmap` do to one address space: they
grow it by fresh frames or shrink it by frames they free, and never touch the upper half. -/
namespace GarnOS
open ByteMemory Outcome Finset RadixTree PageTableEntry Walks

def UpperKept (m : Mem) (pt : ℕ) (m' : Mem) : Prop :=
  ∀ j, 256 ≤ j → j < 512 → readEntry m' pt j = readEntry m pt j

/-- The space at `pt` took the fresh frames `A` and wrote only frames of its own. -/
structure Grown (s : Machine) (pt : ℕ) (A : Finset ℕ) (s' : Machine) : Prop where
  acq : Acquired s A (heldFrames s.mem pt ∪ A) s'
  upper : UpperKept s.mem pt s'.mem
  sound : SoundTree s'.mem 4 pt
  frames : heldFrames s'.mem pt ⊆ heldFrames s.mem pt ∪ A

/-- The space at `pt` gave back the frames `R` and wrote only frames of its own. -/
structure Shrunk (s : Machine) (pt : ℕ) (R : Finset ℕ) (s' : Machine) : Prop where
  rel : Released s R (heldFrames s.mem pt) s'
  upper : UpperKept s.mem pt s'.mem
  sound : SoundTree s'.mem 4 pt
  frames : heldFrames s'.mem pt ⊆ heldFrames s.mem pt \ R
  owned : R ⊆ heldFrames s.mem pt

/-- From `s` to `s'` only the space at `pt` and the frames `A` were touched. Frames of the
space that were freed on the way may have come back as frames of `A`. -/
structure OnlySpace (s : Machine) (pt : ℕ) (A : Finset ℕ) (s' : Machine) : Prop where
  length : s'.pmm.bitmap.length = s.pmm.bitmap.length
  fresh : Disjoint (s.pmm.setBits \ heldFrames s.mem pt) A
  bits : s.pmm.setBits \ heldFrames s.mem pt ⊆ s'.pmm.setBits
  mem : ∀ x ∉ heldFrames s.mem pt ∪ A, FrameEq s.mem s'.mem x

/-- A call that stays in the lower half of the space at `pt` and leaves the space sound. -/
structure Confined (s : Machine) (pt : ℕ) (A : Finset ℕ) (s' : Machine) : Prop
    extends OnlySpace s pt A s' where
  upper : UpperKept s.mem pt s'.mem
  ready : SpaceReady s' pt
  frames : heldFrames s'.mem pt ⊆ heldFrames s.mem pt ∪ A

section Effects
variable {s u s' : Machine} {pt f v : ℕ} {A B R Q : Finset ℕ}

theorem Grown.refl (h : SpaceReady s pt) : Grown s pt ∅ s :=
  ⟨Acquired.refl s _, fun _ _ _ => rfl, h.sound, subset_union_left⟩

theorem Grown.ready (h : SpaceReady s pt) (hg : Grown s pt A u) : SpaceReady u pt :=
  ⟨hg.acq.addressable h.addressable, hg.sound,
    hg.frames.trans (union_subset (h.used.trans hg.acq.keeps) hg.acq.taken)⟩

theorem Grown.trans (hg : Grown s pt A u) (hg' : Grown u pt B s') : Grown s pt (A ∪ B) s' := by
  have hsub : heldFrames u.mem pt ∪ B ⊆ heldFrames s.mem pt ∪ (A ∪ B) := by
    rw [← union_assoc]
    exact union_subset_union_left hg.frames
  refine ⟨(hg.acq.trans hg'.acq).mono (union_subset ?_ hsub), ?_, hg'.sound, hg'.frames.trans hsub⟩
  · exact union_subset_union_right subset_union_left
  · exact fun j h1 h2 => (hg'.upper j h1 h2).trans (hg.upper j h1 h2)

theorem Shrunk.refl (h : SpaceReady s pt) : Shrunk s pt ∅ s :=
  ⟨Released.refl s _, fun _ _ _ => rfl, h.sound, by rw [sdiff_empty], empty_subset _⟩

theorem Shrunk.ready (h : SpaceReady s pt) (hs : Shrunk s pt R u) : SpaceReady u pt := by
  refine ⟨hs.rel.addressable h.addressable, hs.sound, ?_⟩
  rw [hs.rel.setBits]
  exact hs.frames.trans (sdiff_subset_sdiff h.used Subset.rfl)

theorem Shrunk.trans (hs : Shrunk s pt R u) (hs' : Shrunk u pt Q s') :
    Shrunk s pt (R ∪ Q) s' := by
  have hQ := hs'.owned.trans hs.frames
  have hdisj : Disjoint R Q := disjoint_of_subset_right hQ disjoint_sdiff
  have hsub : heldFrames u.mem pt ⊆ heldFrames s.mem pt := hs.frames.trans sdiff_subset
  refine ⟨(hs.rel.trans hs'.rel hdisj).mono (union_subset Subset.rfl hsub), ?_, hs'.sound, ?_, ?_⟩
  · exact fun j h1 h2 => (hs'.upper j h1 h2).trans (hs.upper j h1 h2)
  · rw [← sup_eq_union, ← sdiff_sdiff_left]
    exact hs'.frames.trans (sdiff_subset_sdiff hs.frames Subset.rfl)
  · exact union_subset hs.owned (hQ.trans sdiff_subset)

theorem Grown.confined (h : SpaceReady s pt) (hg : Grown s pt A s') : Confined s pt A s' where
  length := hg.acq.length
  fresh := hg.acq.fresh.mono_left sdiff_subset
  bits := sdiff_subset.trans hg.acq.keeps
  mem := hg.acq.mem
  upper := hg.upper
  ready := hg.ready h
  frames := hg.frames

theorem Shrunk.confined (h : SpaceReady s pt) (hs : Shrunk s pt R s') : Confined s pt ∅ s' where
  length := hs.rel.length
  fresh := disjoint_empty_right _
  bits := by
    rw [hs.rel.setBits]
    exact sdiff_subset_sdiff Subset.rfl hs.owned
  mem x hx := hs.rel.mem x (by rwa [union_empty] at hx)
  upper := hs.upper
  ready := hs.ready h
  frames := hs.frames.trans (sdiff_subset.trans subset_union_left)

theorem Confined.refl (h : SpaceReady s pt) : Confined s pt ∅ s := (Grown.refl h).confined h

theorem Confined.outside (hc : Confined s pt A u) {x : ℕ}
    (hx : x ∈ s.pmm.setBits \ heldFrames s.mem pt) :
    x ∈ u.pmm.setBits \ heldFrames u.mem pt := by
  refine mem_sdiff.mpr ⟨hc.bits hx, fun hheld => ?_⟩
  rcases mem_union.mp (hc.frames hheld) with hold | hnew
  · exact (mem_sdiff.mp hx).2 hold
  · exact disjoint_left.mp hc.fresh hx hnew

theorem Confined.trans (hc : Confined s pt A u) (hc' : Confined u pt B s') :
    Confined s pt (A ∪ B) s' where
  length := hc'.length.trans hc.length
  fresh := by
    rw [disjoint_union_right]
    exact ⟨hc.fresh, disjoint_left.mpr fun x hx => disjoint_left.mp hc'.fresh (hc.outside hx)⟩
  bits x hx := hc'.bits (hc.outside hx)
  mem x hx := by
    rw [← union_assoc, mem_union, not_or] at hx
    refine (hc.mem x hx.1).trans (hc'.mem x ?_)
    rw [mem_union, not_or]
    exact ⟨fun hheld => hx.1 (hc.frames hheld), hx.2⟩
  upper j h1 h2 := (hc'.upper j h1 h2).trans (hc.upper j h1 h2)
  ready := hc'.ready
  frames := by
    rw [← union_assoc]
    exact hc'.frames.trans (union_subset_union_left hc.frames)

theorem self_mem_heldFrames (m : Mem) (r : ℕ) : r ∈ heldFrames m r := self_mem_footprint _ 4 r

theorem SpaceReady.wellFormed (h : SpaceReady s pt) : WellFormed s pt where
  addressable := h.addressable
  distinct := (present_prunes_held s.mem).distinct h.sound.distinct
  used := ((present_prunes_held s.mem).footprint_subset 4 pt).trans h.used
  clean i hi hp := (h.sound.clean i hi).1 hp

theorem vaspaceClear_post (h : SpaceReady s pt) :
    Post (vaspaceClear s pt)
      (fun s' => (∃ R, Shrunk s pt R s') ∧ ∀ i < 256, (readEntry s'.mem pt i).vacant = true)
      (fun _ => False) := by
  apply (archVaspaceClear_post h.wellFormed).mono_ok
  rintro s' ⟨hrel, hvacant, hupper⟩
  have hsub : ownedFrames s.mem pt ⊆ heldFrames s.mem pt :=
    (present_prunes_held s.mem).footprint_subset 4 pt
  obtain ⟨hsound, hfoot⟩ := soundTree_of_vacant (m := s'.mem) (t := pt) 3 hvacant
  refine ⟨⟨_, ⟨hrel.mono hsub, hupper, hsound, ?_, (erase_subset _ _).trans hsub⟩⟩, hvacant⟩
  have hroot : heldFrames s'.mem pt = {pt} := hfoot
  rw [hroot, singleton_subset_iff, mem_sdiff]
  exact ⟨self_mem_heldFrames _ pt, notMem_erase _ _⟩

/-- `vmm_map` of a page that was just allocated. -/
theorem vmmMap_fresh_post {w : Machine} (h : SpaceReady s pt) (hfree : f ∉ s.pmm.setBits)
    (hacq : Acquired s {f} ∅ w) (hmem : w.mem = s.mem) (hv : v < VMM_USER_END) (flags : BitVec 32) :
    Post (vmmMap w pt (f * 4096) v flags)
      (fun s' => (∃ A, Grown s pt A s' ∧ A.card ≤ 4) ∧
        (flags &&& VMM_PRESENT ≠ 0 → flags &&& VMM_RW ≠ 0 → Writable s'.mem pt (pagePath v)) ∧
        ∀ j < 512, j ≠ v / 4096 / 512 / 512 / 512 % 512 →
          readEntry s'.mem pt j = readEntry s.mem pt j)
      (fun e => e = outOfMemory ∧ w.pmm.clearBits.card < 3) := by
  have hw : SpaceReady w pt := ⟨hacq.addressable h.addressable, hmem ▸ h.sound,
    hmem ▸ h.used.trans hacq.keeps⟩
  have htaken := hacq.taken (mem_singleton_self f)
  have hframe : ∀ e, (mappedEntry (f * 4096) flags e).frame = f := by
    intro e
    change (BitVec.ofNat 51 (f * 4096 / 4096)).toNat = f
    rw [Nat.mul_div_cancel f (by decide)]
    exact hw.addressable.toNat_ofNat (Pmm.lt_pages_of_test (Pmm.mem_setBits.mp htaken))
  refine (hw.tree.vmmMap_post (lowPaths_pagePath hv) (f * 4096) flags).mono_ok ?_
  rintro s' ⟨A, hA, hgrown, -, hleaves, hlinks, hothers⟩
  have hnew : f ∉ heldFrames w.mem pt ∧ f ∉ A :=
    ⟨hmem ▸ fun hf => hfree (h.used hf), disjoint_left.mp hgrown.acq.fresh htaken⟩
  obtain ⟨hsound, hwalks⟩ := hw.sound.relinked (N := fun p x => p = pagePath v ∧ x = f)
    (disjoint_of_subset_left hw.used hgrown.acq.fresh) hgrown.tree.unique
    (fun p hp hlen => (hgrown.tables p hp hlen).imp_right And.right) (fun q j x hq hlen hx => by
      rw [hleaves q j hq hlen] at hx
      split at hx
      · rename_i hpath
        unfold heldFrame at hx
        split at hx
        · cases hx
        · exact .inr ⟨hpath, (Option.some.inj hx).symm.trans (hframe _)⟩
      · exact .inl hx) (fun p x hN => hN.2 ▸ hnew) (fun p q x hN hN' => hN.1.trans hN'.1.symm) hlinks
  have hwacq : Acquired w A (heldFrames w.mem pt ∪ A) s' :=
    { hgrown.acq with mem := fun x hx => hgrown.outside hx }
  refine ⟨⟨{f} ∪ A, ⟨?_, fun j h1 h2 => ?_, hsound, fun x hx => ?_⟩, ?_⟩, ?_, hmem ▸ hothers⟩
  · rw [hmem] at hwacq
    refine (hacq.trans hwacq).mono ?_
    rw [empty_union]
    exact union_subset_union_right subset_union_right
  · have hlow : v / 4096 / 512 / 512 / 512 % 512 < 256 := (validPath_pagePath hv).1
    rw [← hmem]
    exact hothers j h2 (by omega)
  · obtain ⟨p, hp⟩ := mem_footprint_iff.mp hx
    rw [mem_union, mem_union, mem_singleton, ← hmem]
    obtain hold | hx | ⟨-, rfl⟩ := hwalks p x hp
    · exact .inl (walk_mem_footprint hold)
    · exact .inr (.inr hx)
    · exact .inr (.inl rfl)
  · have hunion := card_union_le {f} A
    rw [card_singleton] at hunion
    omega
  · intro hpresent hrw
    have hleaf := hleaves (tablePath v) (v / 4096 % 512) (lowPaths_pagePath hv) rfl
    rw [← pagePath_eq, if_pos rfl] at hleaf
    refine writable_of_entry hsound.clean hv ?_ ?_
    · rw [hleaf]
      exact bne_iff_ne.mpr hpresent
    · rw [hleaf]
      exact bne_iff_ne.mpr hrw

theorem mapFresh_post (h : SpaceReady s pt) (hv : v < VMM_USER_END) (flags : BitVec 32) :
    Post (do let (physAddr, s) ← pmmAllocate s 1
             vmmMap s pt physAddr v flags)
      (fun s' => (∃ A, Grown s pt A s' ∧ A.card ≤ 4) ∧
        (flags &&& VMM_PRESENT ≠ 0 → flags &&& VMM_RW ≠ 0 → Writable s'.mem pt (pagePath v)) ∧
        ∀ j < 512, j ≠ v / 4096 / 512 / 512 / 512 % 512 →
          readEntry s'.mem pt j = readEntry s.mem pt j)
      (fun e => e = outOfMemory ∧ s.pmm.clearBits.card < 4) := by
  apply ((pmmAllocate_one_post s).mono_error fun _ he => ⟨he.1, by omega⟩).bind
  rintro ⟨base, w⟩ ⟨f, rfl, -, hfree, hacq, hmem⟩
  refine (vmmMap_fresh_post h hfree hacq hmem hv flags).mono_error ?_
  rintro e ⟨rfl, hlt⟩
  have hcard := hacq.card_clearBits
  rw [card_singleton] at hcard
  exact ⟨rfl, by omega⟩

/-- The loop maps fresh pages. The last one can be written through if the flags say so, and the root
entries of other addresses stay. -/
theorem mapFreshPages_post (h : SpaceReady s pt) {n : ℕ}
    (hv : ∀ i < n, (v + i * PAGE_SIZE) % 2 ^ 64 < VMM_USER_END) (flags : BitVec 32) :
    Post (mapFreshPages pt v n flags s)
      (fun s' => (∃ A, Grown s pt A s' ∧ A.card ≤ 4 * n) ∧
        (flags &&& VMM_PRESENT ≠ 0 → flags &&& VMM_RW ≠ 0 → ∀ i, n = i + 1 →
          Writable s'.mem pt (pagePath ((v + i * PAGE_SIZE) % 2 ^ 64))) ∧
        ∀ j < 512, (∀ i < n, j ≠ (v + i * PAGE_SIZE) % 2 ^ 64 / 4096 / 512 / 512 / 512 % 512) →
          readEntry s'.mem pt j = readEntry s.mem pt j)
      (fun e => e = outOfMemory ∧ s.pmm.clearBits.card < 4 * n) := by
  apply (forRange_post (fun k u => (∃ A, Grown s pt A u ∧ A.card ≤ 4 * k) ∧
    (flags &&& VMM_PRESENT ≠ 0 → flags &&& VMM_RW ≠ 0 → ∀ i, k = i + 1 →
      Writable u.mem pt (pagePath ((v + i * PAGE_SIZE) % 2 ^ 64))) ∧
    ∀ j < 512, (∀ i < k, j ≠ (v + i * PAGE_SIZE) % 2 ^ 64 / 4096 / 512 / 512 / 512 % 512) →
      readEntry u.mem pt j = readEntry s.mem pt j) ?_ ?_).mono_ok fun u hu => by
        rwa [Nat.zero_add] at hu
  · refine ⟨⟨∅, Grown.refl h, by simp⟩, fun _ _ i hi => ?_, fun _ _ _ => rfl⟩
    cases hi
  · rintro i u _ hi ⟨⟨A, hg, hA⟩, -, hkept⟩
    have hcard := hg.acq.card_clearBits
    apply (mapFresh_post (hg.ready h) (hv i (by omega)) flags).mono
    · rintro s' ⟨⟨B, hg', hB⟩, hwritable, hothers⟩
      have hunion := card_union_le A B
      refine ⟨⟨_, hg.trans hg', by omega⟩, fun hp hw k hk => ?_, fun j hj hne => ?_⟩
      · rw [← Nat.succ.inj hk]
        exact hwritable hp hw
      · rw [hothers j hj (hne i (Nat.lt_succ_self i))]
        exact hkept j hj fun k hk => hne k (hk.trans (Nat.lt_succ_self i))
    · rintro e ⟨rfl, hlt⟩
      exact ⟨rfl, by omega⟩

theorem area_lt_userEnd {size : ℕ} (hrange : v + size ≤ VMM_USER_END) (i : ℕ)
    (hi : i < (if size % PAGE_SIZE ≠ 0 then ALIGN_UP size PAGE_SIZE else size) / PAGE_SIZE) :
    (v + i * PAGE_SIZE) % 2 ^ 64 < VMM_USER_END := by
  unfold ALIGN_UP PAGE_SIZE at hi
  unfold PAGE_SIZE
  split at hi
  · omega
  · omega

theorem vaspaceCreateArea_post (h : SpaceReady s pt) {size : ℕ} (hrange : v + size ≤ VMM_USER_END)
    (flags : BitVec 32) :
    Post (vaspaceCreateArea s pt v size flags) (fun s' => ∃ A, Grown s pt A s')
      (fun e => e = outOfMemory) :=
  (mapFreshPages_post h (area_lt_userEnd hrange) flags).mono
    (fun _ ⟨⟨A, hg, _⟩, _⟩ => ⟨A, hg⟩) fun _ he => he.1

theorem sysMmap_post (h : SpaceReady s pt) (addr length : BitVec 64) (prot flags : BitVec 32) :
    Post (sysMmap s pt addr length prot flags) (fun r => ∃ A, Grown s pt A r.2)
      (fun e => e = outOfMemory ∧ s.pmm.clearBits.card < 4 * (length.toNat / PAGE_SIZE)) := by
  rcases sysMmap_cases s pt addr length prot flags with ⟨z, hcall, -⟩ | ⟨c, hpos, hfirst, hcall⟩
  · rw [hcall]
    exact post_ok.mpr ⟨∅, Grown.refl h⟩
  · have hrange : ∀ i < length.toNat / PAGE_SIZE,
        (mmapHint addr + c * PAGE_SIZE + i * PAGE_SIZE) % 2 ^ 64 < VMM_USER_END := by
      intro i hi
      have hbelow := (run_below hfirst).2 i hi
      have hend := (mmapEnd_spec flags).2
      unfold PAGE_SIZE VMM_USER_END
      omega
    rw [hcall]
    apply (mapFreshPages_post h hrange _).bind
    rintro s' ⟨⟨A, hg, -⟩, -⟩
    exact post_ok.mpr ⟨A, hg⟩

theorem length_pagePath (v : ℕ) : (pagePath v).length = 4 := rfl

/-- A page for which `vmm_virt_to_phys` finds an address is one that the space holds. -/
theorem SpaceReady.page_held (h : SpaceReady s pt) (hv : v < VMM_USER_END)
    (hne : vmmVirtToPhys s.mem pt v ≠ 0) : ∃ f t, vmmVirtToPhys s.mem pt v = f * 4096 ∧
      walk slots (heldLinks s.mem) 4 pt (pagePath v) = some f ∧
      follow (child s.mem) pt (tablePath v) = some t := by
  have hfits : lowPaths.Has (tablePath v ++ [v / 4096 % 512]) := lowPaths_pagePath hv
  have hphys : vmmVirtToPhys s.mem pt v =
      (entryAt s.mem pt (tablePath v) (v / 4096 % 512)).phys := by
    rw [vmmVirtToPhys, archMmVirtToPhys_eq_found, foundEntry_pagePath hfits fun q j hq hlen =>
      (clean_iff.mp h.sound.clean q j hq (by omega)).1]
  rw [hphys] at hne ⊢
  set e := entryAt s.mem pt (tablePath v) (v / 4096 % 512) with he
  have hvacant : e.vacant = false := by
    cases hvac : e.vacant with
    | true => exact absurd (if_pos hvac) hne
    | false => rfl
  have hw : walk slots (heldLinks s.mem) 4 pt (pagePath v) = some e.frame := by
    rw [walk_pagePath hv, ← he, heldFrame, hvacant, if_neg Bool.false_ne_true]
  have hlt := Pmm.lt_pages_of_test (Pmm.mem_setBits.mp (h.used (walk_mem_footprint hw)))
  cases ht : follow (child s.mem) pt (tablePath v) with
  | none =>
    rw [he, entryAt_of_none ht, empty_vacant] at hvacant
    cases hvacant
  | some t =>
    refine ⟨e.frame, t, ?_, hw, rfl⟩
    rw [PageTableEntry.phys, hvacant, if_neg Bool.false_ne_true, h.addressable.frame_mod hlt]

theorem unmapPage_post (h : SpaceReady s pt) (hv : v < VMM_USER_END)
    (hne : vmmVirtToPhys s.mem pt v ≠ 0) :
    Post (do let s ← pmmFree s (vmmVirtToPhys s.mem pt v) 1
             vmmUnmap s pt v)
      (Shrunk s pt {vmmVirtToPhys s.mem pt v / 4096}) (fun _ => False) := by
  have hfits : lowPaths.Has (tablePath v ++ [v / 4096 % 512]) := lowPaths_pagePath hv
  obtain ⟨f, t, hphys, hw, ht⟩ := h.page_held hv hne
  have hheld : f ∈ heldFrames s.mem pt := walk_mem_footprint hw
  have htheld := table_mem_heldFrames (lowPaths.init hfits) (Nat.le_refl 3) ht
  have hapart : ∀ p, lowPaths.Has p → p.length ≤ 3 → follow (child s.mem) pt p ≠ some f := by
    intro p hp hlen hfollow
    have hsame := h.sound.distinct.walk_injective ((walk_eq_follow hp (by omega)).trans hfollow) hw
    rw [hsame, length_pagePath] at hlen
    exact absurd hlen (by decide)
  rw [hphys, Nat.mul_div_cancel _ (by decide)]
  apply (h.tree.freeUnmap hfits (h.used hheld) hapart ht).mono_ok
  rintro s' ⟨htree, hrel, hfollow, hentries⟩
  obtain ⟨hsound, hwalks⟩ := h.sound.relinked (N := fun _ _ => False) (disjoint_empty_right _)
    htree.unique (fun p hp hlen => .inl (hfollow p hp hlen)) (fun q j x hq hlen hx => .inl (by
      rw [hentries q j hq hlen.le] at hx
      split at hx
      · cases hx
      · exact hx)) (fun _ _ hN => hN.elim) (fun _ _ _ hN => hN.elim) fun q j hq hlen => .inl (by
      rw [hentries q j hq (by omega), if_neg]
      intro hpath
      have hlength : q.length + 1 = 4 := by simpa [pagePath] using congrArg List.length hpath
      omega)
  refine ⟨hrel.mono ?_, fun j _ hj => ?_, hsound, fun x hx => ?_, singleton_subset_iff.mpr hheld⟩
  · exact insert_subset hheld (singleton_subset_iff.mpr htheld)
  · have hroot : pt ∉ ({f, t} : Finset ℕ) := by
      rw [mem_insert, mem_singleton]
      rintro (rfl | rfl)
      · exact hapart [] (lowPaths.init hfits) (Nat.zero_le 3) rfl
      · cases h.tree.unique (tablePath v) [] pt ⟨lowPaths.init hfits, Nat.le_refl 3⟩
          ⟨lowPaths.init hfits, Nat.zero_le 3⟩ ht rfl
    exact (readEntry_congr (hrel.mem pt hroot) hj).symm
  · obtain ⟨p, hp⟩ := mem_footprint_iff.mp hx
    have hold : walk slots (heldLinks s.mem) 4 pt p = some x := by
      obtain hold | hx | hN := hwalks p x hp
      · exact hold
      · exact absurd hx (notMem_empty x)
      · exact hN.elim
    refine mem_sdiff.mpr ⟨walk_mem_footprint hold, fun hxf => ?_⟩
    rw [mem_singleton] at hxf
    obtain rfl := h.sound.distinct.walk_injective (hold.trans (congrArg some hxf)) hw
    rw [walk_pagePath hv, hentries (tablePath v) _ hfits (Nat.le_refl 3), ← pagePath_eq,
      if_pos rfl] at hp
    cases hp

/-- The loop of `sys_munmap`; it frees the frame of the first page if there is one. -/
theorem munmapPages_post (n : ℕ) {s : Machine} {v : ℕ} (h : SpaceReady s pt)
    (hrange : v + n * PAGE_SIZE ≤ VMM_USER_END) :
    Post (munmapPages pt n v s) (fun r => ∃ R, Shrunk s pt R r.2 ∧
      (0 < n → vmmVirtToPhys s.mem pt v ≠ 0 → vmmVirtToPhys s.mem pt v / 4096 ∈ R))
      (fun _ => False) := by
  induction n generalizing s v with
  | zero => exact post_ok.mpr ⟨∅, Shrunk.refl h, fun hlt => absurd hlt (lt_irrefl 0)⟩
  | succ n ih =>
    unfold PAGE_SIZE VMM_USER_END at hrange
    have hv : v < VMM_USER_END := by
      unfold VMM_USER_END
      omega
    unfold munmapPages
    dsimp only
    split
    · rename_i hzero
      exact post_ok.mpr ⟨∅, Shrunk.refl h, fun _ hne => absurd hzero hne⟩
    · rename_i hne
      rw [← bind_assoc]
      apply (unmapPage_post h hv hne).bind
      intro u hfirst
      apply (ih (hfirst.ready h) ?_).mono_ok
      · rintro r ⟨Q, hQ, -⟩
        exact ⟨_, hfirst.trans hQ, fun _ _ => mem_union_left _ (mem_singleton_self _)⟩
      · unfold PAGE_SIZE VMM_USER_END
        omega

theorem sysMunmap_post (h : SpaceReady s pt) {addr length : BitVec 64}
    (hrange : addr.toNat + length.toNat ≤ VMM_USER_END) :
    Post (sysMunmap s pt addr length) (fun r => ∃ R, Shrunk s pt R r.2) (fun _ => False) := by
  unfold sysMunmap
  split_ifs
  · exact post_ok.mpr ⟨∅, Shrunk.refl h⟩
  · exact post_ok.mpr ⟨∅, Shrunk.refl h⟩
  · apply (munmapPages_post _ h ?_).mono_ok
    · rintro r ⟨R, hR, -⟩
      exact ⟨R, hR⟩
    have hdiv := Nat.div_mul_le_self length.toNat PAGE_SIZE
    omega

end Effects

section Sample

theorem clean_onePage : Clean onePage.mem 4 1 := by
  refine clean_iff.mpr fun p i hp _ => ?_
  have hi : i < 512 := IndexPaths.last (P := lowPaths) hp
  cases ht : follow (child onePage.mem) 1 p with
  | none =>
    rw [entryAt_of_none ht]
    decide
  | some t =>
    rw [entryAt_of_follow ht, readEntry_onePage hi]
    split
    · exact ⟨fun hp => (Bool.noConfusion hp), fun _ => rfl⟩
    · decide

theorem onePage_held : SoundTree onePage.mem 4 1 ∧ heldFrames onePage.mem 1 = {1, 2, 3, 4, 5} := by
  obtain ⟨hfoot, hdistinct⟩ := rising_onePage.tree (fun e => !e.vacant) (n := 4) rfl (fun _ => rfl)
    rfl
  exact ⟨⟨hdistinct, clean_onePage⟩, hfoot⟩

theorem onePage_ready : SpaceReady onePage 1 := by
  refine ⟨wellFormed_onePage.1.addressable, onePage_held.1, ?_⟩
  rw [onePage_held.2]
  decide

end Sample

end GarnOS
