import GarnOS.Paging.Clone
import GarnOS.Paging.Vaspace

/-! Whole address spaces: a clone is an exact private copy, and tear-down gives back exactly
the frames a space owns. -/
namespace GarnOS
open ByteMemory Outcome Finset RadixTree PageTableEntry

/-- The root, the lower-half tables and the present user pages of the address space at `pt`. -/
abbrev ownedFrames (m : Mem) (pt : ℕ) : Finset ℕ := footprint slots (presentLinks m) 4 pt

theorem ownedFrames_eq (m : Mem) (pt : ℕ) :
    ownedFrames m pt = insert pt (below slots (presentLinks m) 4 pt) := footprint_eq _ 4 pt

/-- A process page table as the kernel builds them: made of pairwise distinct frames that are
allocated, and with no address left in an absent PML4 entry. -/
structure WellFormed (s : Machine) (pt : ℕ) : Prop where
  addressable : s.pmm.Addressable
  distinct : Distinct slots (presentLinks s.mem) 4 pt
  used : ownedFrames s.mem pt ⊆ s.pmm.setBits
  clean : ∀ i < 256, (readEntry s.mem pt i).present = false → (readEntry s.mem pt i).addr = 0

variable {s : Machine} {pt v kernelPT : ℕ} {m m' : Mem}

theorem WellFormed.lt_pages {f : ℕ} (h : WellFormed s pt) (hf : f ∈ ownedFrames s.mem pt) :
    f < s.pmm.pages :=
  Pmm.lt_pages_of_test (Pmm.mem_setBits.mp (h.used hf))

/-- The indices used on the way from the PML4 to the page of `virtAddr`. -/
def pagePath (virtAddr : ℕ) : List ℕ :=
  let (Pi, PTi, PDi, PDPi) := mmIndexer virtAddr
  [PDPi, PDi, PTi, Pi]

theorem pagePath_congr {v w : ℕ} (h : v / 4096 = w / 4096) : pagePath v = pagePath w := by
  simp [pagePath, mmIndexer, h]

/-- The processor's walk along present entries: the flag bits met at each level and the frame
at the end. -/
def translate (m : Mem) : ℕ → List ℕ → Option (List PageTableEntry × ℕ)
  | t, [] => some ([], t)
  | t, i :: p =>
    let e := readEntry m t i
    if e.present then (translate m e.frame p).map fun r => (e.flagBits :: r.1, r.2) else none

/-- The path stays inside the tables that the address-space loops visit. -/
def ValidPath : ℕ → List ℕ → Prop
  | 0, p => p = []
  | _ + 1, [] => False
  | n + 1, i :: p => i < slots (n + 1) ∧ ValidPath n p

theorem validPath_pagePath (h : v < VMM_USER_END) : ValidPath 4 (pagePath v) := by
  unfold VMM_USER_END at h
  refine ⟨?_, Nat.mod_lt _ (by decide), Nat.mod_lt _ (by decide), Nat.mod_lt _ (by decide), rfl⟩
  change v / 4096 / 512 / 512 / 512 % 512 < 256
  omega

theorem Copies.translate {n : ℕ} {t t' : ℕ} {p : List ℕ} (h : Copies n m t m' t')
    (hp : ValidPath n p) : (translate m' t' p).map Prod.fst = (translate m t p).map Prod.fst ∧
      ∀ r r', translate m t p = some r → translate m' t' p = some r' →
        ∀ k < 4096, m' (r'.2 * 4096 + k) = m (r.2 * 4096 + k) := by
  induction n generalizing t t' p with
  | zero =>
    obtain rfl : p = [] := hp
    refine ⟨rfl, ?_⟩
    rintro r r' ⟨⟩ ⟨⟩
    exact h
  | succ n ih =>
    cases p with
    | nil => exact hp.elim
    | cons i p =>
      obtain ⟨hi, hp⟩ := hp
      simp only [GarnOS.translate]
      cases hpres : (readEntry m t i).present with
      | false =>
        simp only [(h i hi).1 hpres, empty_present, Bool.false_eq_true, ↓reduceIte]
        exact ⟨trivial, fun r r' hr => nomatch hr⟩
      | true =>
        obtain ⟨hflags, hcopies⟩ := (h i hi).2 hpres
        obtain ⟨hfst, hbytes⟩ := ih hcopies hp
        rw [(flagBits_present hflags).trans hpres, hflags]
        simp only [↓reduceIte, Option.map_map]
        constructor
        · have hcons := congrArg (Option.map (List.cons (readEntry m t i).flagBits)) hfst
          rw [Option.map_map, Option.map_map] at hcons
          exact hcons
        · intro r r' hr hr'
          obtain ⟨q, hq, rfl⟩ := Option.map_eq_some_iff.mp hr
          obtain ⟨q', hq', rfl⟩ := Option.map_eq_some_iff.mp hr'
          exact hbytes q q' hq hq'

theorem archVaspaceNew_post (s : Machine) (hk : kernelPT ∈ s.pmm.setBits) :
    Post (archVaspaceNew s kernelPT)
      (fun r => r.1 ∉ s.pmm.setBits ∧ Acquired s {r.1} {r.1} r.2 ∧
        (∀ i < 256, readEntry r.2.mem r.1 i = PageTableEntry.empty) ∧
        ∀ i, 256 ≤ i → i < 512 → readEntry r.2.mem r.1 i = readEntry s.mem kernelPT i)
      (fun e => e = outOfMemory ∧ s.pmm.clearBits.card = 0) := by
  apply (pmmAllocate_one_post s).bind
  rintro ⟨base, w⟩ ⟨f, rfl, -, hfree, hacq, hmem⟩
  have hne : kernelPT ≠ f := fun he => hfree (he ▸ hk)
  dsimp only at hmem ⊢
  rw [hmem, Nat.mul_div_cancel f (by decide), PAGE_SIZE, memset_eq_fill,
    memcpy_eq_copy s.mem (by omega)]
  let m := copy s.mem (f * 4096) (kernelPT * 4096) 4096
  refine post_ok.mpr ⟨hfree, ?_, fun i hi => ?_, fun i h1 h2 => ?_⟩
  · apply (hacq.mono (empty_subset _)).write
    intro g hg
    rw [mem_singleton] at hg
    rw [hmem]
    have hfill : FrameEq (fill m (f * 4096) 2048 0) m g := fill_eqOn m 0 (by omega)
    exact (hfill.trans (copy_frameEq hg)).symm
  · unfold readEntry
    rw [word_fill_zero m (by unfold entryAddr; omega) (by unfold entryAddr; omega)]
    rfl
  · have hupper : word (fill m (f * 4096) 2048 0) (entryAddr f i) = word m (entryAddr f i) :=
      word_congr (fill_eqOn m 0 (by unfold entryAddr; omega))
    unfold readEntry
    rw [hupper]
    exact congrArg decode (word_copy s.mem (by omega))

/-- What `arch_vaspace_clone` leaves behind, before anything is read off it: a fresh tree that
copies the one at `pt`, and the kernel's upper half. -/
theorem archVaspaceClone_post (h : WellFormed s pt) (hk : kernelPT ∈ s.pmm.setBits) :
    Post (archVaspaceClone s kernelPT pt)
      (fun r => Acquired s (ownedFrames r.2.mem r.1) (ownedFrames r.2.mem r.1) r.2 ∧
        Copies 4 s.mem pt r.2.mem r.1 ∧ Distinct slots (presentLinks r.2.mem) 4 r.1 ∧
        ∀ i, 256 ≤ i → i < 512 → readEntry r.2.mem r.1 i = readEntry s.mem kernelPT i)
      (fun e => e = outOfMemory ∧ s.pmm.clearBits.card < (ownedFrames s.mem pt).card) := by
  have hcard : (ownedFrames s.mem pt).card = linkCount slots (presentLinks s.mem) 4 pt + 1 := by
    rw [ownedFrames_eq, card_insert_of_notMem h.distinct.not_mem_below, h.distinct.card_below]
  apply ((archVaspaceNew_post s hk).mono (fun _ hr => hr) ?_).bind
  · rintro ⟨clone, u⟩ ⟨hfree, hacq, hlower, hupper⟩
    dsimp only at hfree hacq hlower hupper ⊢
    have hkeep : ∀ g ∈ ownedFrames s.mem pt, FrameEq s.mem u.mem g := by
      intro g hg
      apply hacq.mem
      rw [mem_singleton]
      rintro rfl
      exact hfree (h.used hg)
    have hagree : Agree slots (presentLinks s.mem) (presentLinks u.mem) 4 pt :=
      agree_of_frameEq fun g hg => hkeep g (tables_subset_footprint _ 4 pt hg)
    have hready : CloneReady u 4 pt clone := by
      refine ⟨hacq.addressable h.addressable, ?_, hacq.taken (mem_singleton_self clone), ?_, hlower⟩
      · rw [footprint_congr hagree]
        exact h.used.trans hacq.keeps
      · rw [footprint_congr hagree]
        exact fun hg => hfree (h.used hg)
    apply ((cloneEntries_post 3 u pt clone hready).mono (fun _ hv => hv) ?_).bind
    · rintro v ⟨A, hv⟩
      refine post_ok.mpr ⟨?_, ?_, hv.distinct, ?_⟩
      · rw [ownedFrames_eq, hv.frames, insert_eq]
        exact (hacq.trans hv.acq).mono (by rw [insert_eq, union_left_idem])
      · apply hv.copies.congr
        · intro g hg
          rw [footprint_congr hagree] at hg
          exact (hkeep g hg).symm
        · exact fun g _ => FrameEq.refl _ g
      · intro i h1 h2
        rw [← hupper i h1 h2]
        exact hv.rest i h2 h1
    · rintro e ⟨rfl, hlt⟩
      rw [linkCount_congr hagree] at hlt
      have hone := hacq.card_clearBits
      rw [card_singleton] at hone
      exact ⟨rfl, by omega⟩
  · rintro e ⟨rfl, hnone⟩
    exact ⟨rfl, by omega⟩

section Sample

def userEntry (f : ℕ) : PageTableEntry :=
  { PageTableEntry.empty with
    present := true, readWrite := true, userSupervisor := true, addr := BitVec.ofNat 51 f }

/-- Sixteen pages; the tables in frames 1 to 4 map frame 5 at virtual address 0, and frame 6
holds the kernel's page table. -/
def onePage : Machine where
  mem := writeEntry (writeEntry (writeEntry (writeEntry (fun _ => 0)
    1 0 (userEntry 2)) 2 0 (userEntry 3)) 3 0 (userEntry 4)) 4 0 (userEntry 5)
  pmm := ⟨[0x7e, 0x00], 6, 10, by decide⟩

theorem readEntry_zero (t i : ℕ) : readEntry (fun _ => 0) t i = PageTableEntry.empty := by
  unfold readEntry PageTableEntry.empty
  congr 1
  simp only [word]
  decide

theorem readEntry_onePage {t i : ℕ} (hi : i < 512) :
    readEntry onePage.mem t i =
      if 1 ≤ t ∧ t ≤ 4 ∧ i = 0 then userEntry (t + 1) else PageTableEntry.empty := by
  unfold onePage
  by_cases hused : 1 ≤ t ∧ t ≤ 4 ∧ i = 0
  · obtain ⟨hlo, hhi, rfl⟩ := hused
    obtain rfl | rfl | rfl | rfl : t = 1 ∨ t = 2 ∨ t = 3 ∨ t = 4 := by omega
    all_goals simp [readEntry_writeEntry_ne]
  · rw [if_neg hused, readEntry_writeEntry_ne (by decide) hi (by omega),
      readEntry_writeEntry_ne (by decide) hi (by omega),
      readEntry_writeEntry_ne (by decide) hi (by omega),
      readEntry_writeEntry_ne (by decide) hi (by omega), readEntry_zero]

/-- From frame `t` on each frame has one entry, for the frame after it, up to frame 5. -/
def Rising (m : Mem) (t : ℕ) : Prop :=
  ∀ u i, t ≤ u → u ≤ 4 → i < 512 →
    readEntry m u i = if i = 0 then userEntry (u + 1) else PageTableEntry.empty

theorem rising_onePage : Rising onePage.mem 1 := by
  intro u i h1 h2 hi
  simp [readEntry_onePage hi, h1, h2]

section
variable (live : PageTableEntry → Bool) {n t : ℕ} (h : Rising m t) (hn : n + t = 5)
  (hlive : ∀ f, live (userEntry f) = true) (hempty : live PageTableEntry.empty = false)
include h hn hlive hempty

theorem Rising.walk_eq (p : List ℕ) : walk slots (links live m) n t p =
    if p = List.replicate p.length 0 ∧ p.length ≤ n then some (t + p.length) else none := by
  induction n generalizing t p with
  | zero => cases p <;> simp [walk]
  | succ n ih =>
    cases p with
    | nil => simp [walk]
    | cons i p =>
      have hrest := ih (t := t + 1) (fun u j hu => h u j (by omega)) (by omega) p
      by_cases hi : i = 0
      · have hentry := h t 0 le_rfl (by omega) (by decide)
        have hholds : holds live n (userEntry (t + 1)) = true := by
          cases n with
          | zero => exact hlive _
          | succ n => rfl
        have hframe : (userEntry (t + 1)).frame = t + 1 := Nat.mod_eq_of_lt (by omega)
        have hlink : links live m n t 0 = some (t + 1) := by
          rw [links, hentry, if_pos rfl, if_pos hholds, hframe]
        have hpos : 0 < slots (n + 1) := by
          unfold slots
          split <;> decide
        rw [hi, walk_step hpos hlink, hrest]
        simp [List.replicate_succ, add_assoc, add_comm 1]
      · have hnone : i < slots (n + 1) → links live m n t i = none := by
          intro hlt
          rw [links, h t i le_rfl (by omega) (hlt.trans_le (slots_le _)), if_neg hi]
          cases n <;> simp [holds, hempty, empty_present]
        have hpath : i :: p ≠ List.replicate (i :: p).length 0 := by simp [List.replicate_succ, hi]
        rw [if_neg fun hp => hpath hp.1, walk]
        split
        · rw [hnone (by assumption), Option.bind_none]
        · rfl

theorem Rising.tree :
    footprint slots (links live m) n t = Icc t 5 ∧ Distinct slots (links live m) n t := by
  have hwalk := h.walk_eq live hn hlive hempty
  refine ⟨?_, distinct_of_walk fun p q x hp hq => ?_⟩
  · ext x
    rw [mem_footprint_iff, mem_Icc]
    constructor
    · rintro ⟨p, hp⟩
      rw [hwalk] at hp
      split_ifs at hp with hlen
      have := Option.some.inj hp
      omega
    · intro hx
      refine ⟨List.replicate (x - t) 0, ?_⟩
      rw [hwalk, List.length_replicate, if_pos ⟨rfl, by omega⟩, Nat.add_sub_cancel' hx.1]
  · rw [hwalk] at hp hq
    split_ifs at hp hq with hlen hlen'
    have hsame : p.length = q.length := by
      have := Option.some.inj (hp.trans hq.symm)
      omega
    rw [hlen.1, hlen'.1, hsame]

end

theorem wellFormed_onePage : WellFormed onePage 1 ∧ ownedFrames onePage.mem 1 = {1, 2, 3, 4, 5} := by
  obtain ⟨hfoot, hdistinct⟩ := rising_onePage.tree present (n := 4) rfl (fun _ => rfl) rfl
  refine ⟨⟨by unfold Pmm.Addressable; decide, hdistinct, ?_, fun i hi hp => ?_⟩, hfoot⟩
  · rw [ownedFrames, hfoot]
    decide
  · rw [readEntry_onePage (by omega)] at hp ⊢
    split at hp
    · cases hp
    · rw [if_neg (by assumption)]
      rfl

end Sample

/-- The address space at `clone` is an exact and private copy of the one at `pt`. -/
structure IsClone (s : Machine) (kernelPT pt clone : ℕ) (s' : Machine) : Prop where
  flags : ∀ v < VMM_USER_END, (translate s'.mem clone (pagePath v)).map Prod.fst =
    (translate s.mem pt (pagePath v)).map Prod.fst
  bytes : ∀ v < VMM_USER_END, ∀ r r', translate s.mem pt (pagePath v) = some r →
    translate s'.mem clone (pagePath v) = some r' →
      ∀ k < 4096, s'.mem (r'.2 * 4096 + k) = s.mem (r.2 * 4096 + k)
  fresh : ownedFrames s'.mem clone ⊆ s.pmm.clearBits
  distinct : Distinct slots (presentLinks s'.mem) 4 clone
  original : ∀ f ∈ ownedFrames s.mem pt, FrameEq s.mem s'.mem f
  upper : ∀ i, 256 ≤ i → i < 512 → readEntry s'.mem clone i = readEntry s.mem kernelPT i

/-- `fork` copies the address space exactly and privately; it can only fail for want of as
many free frames as the original owns. -/
theorem arch_vaspace_clone_exact (s : Machine) (kernelPT pt : ℕ) (h : WellFormed s pt)
    (hk : kernelPT ∈ s.pmm.setBits) :
    Post (archVaspaceClone s kernelPT pt) (fun r => IsClone s kernelPT pt r.1 r.2)
      (fun e => e = outOfMemory ∧ s.pmm.clearBits.card < (ownedFrames s.mem pt).card) := by
  apply (archVaspaceClone_post h hk).mono_ok
  rintro ⟨clone, s'⟩ ⟨hacq, hcopies, hdistinct, hupper⟩
  refine ⟨fun v hv => (hcopies.translate (validPath_pagePath hv)).1,
    fun v hv => (hcopies.translate (validPath_pagePath hv)).2, ?_, hdistinct, ?_, hupper⟩
  · intro f hf
    have hlt := Pmm.lt_pages_of_test (Pmm.mem_setBits.mp (hacq.taken hf))
    have hfree := disjoint_right.mp hacq.fresh hf
    rw [Pmm.mem_setBits, Bool.not_eq_true] at hfree
    exact Pmm.mem_clearBits.mpr ⟨hacq.pages ▸ hlt, hfree⟩
  · exact fun f hf => hacq.mem f (disjoint_left.mp hacq.fresh (h.used hf))

theorem arch_vaspace_clone_exact_onePage :
    WellFormed onePage 1 ∧ 6 ∈ onePage.pmm.setBits ∧
      ∃ clone s', archVaspaceClone onePage 6 1 = .ok (clone, s') ∧
        IsClone onePage 6 1 clone s' := by
  obtain ⟨hwf, howned⟩ := wellFormed_onePage
  have hk : 6 ∈ onePage.pmm.setBits := by decide
  have hpost := arch_vaspace_clone_exact onePage 6 1 hwf hk
  rw [howned] at hpost
  refine ⟨hwf, hk, ?_⟩
  obtain ⟨r, hcall⟩ := hpost.returns_of_not fun _ he => absurd he.2 (by decide)
  exact ⟨r.1, r.2, hcall⟩

theorem archVaspaceDestroy_post (hd : Distinct slots (presentLinks s.mem) 4 pt)
    (hb : ∀ f ∈ ownedFrames s.mem pt, f < s.pmm.pages) :
    Post (archVaspaceDestroy s pt) (Released s (ownedFrames s.mem pt) (ownedFrames s.mem pt))
      (fun _ => False) := by
  rw [ownedFrames_eq] at hb ⊢
  apply (destroyEntries_post 4 pt s hd fun f hf => hb f (mem_insert_of_mem hf)).bind
  intro u hu
  have hroot : pt < u.pmm.pages := by
    rw [hu.pages]
    exact hb pt (mem_insert_self _ _)
  apply (pmmFree_one_post hroot).mono_ok
  intro v hv
  have hall := hu.trans hv (disjoint_singleton_right.mpr hd.not_mem_below)
  rwa [union_comm, ← insert_eq] at hall

theorem ClearedBelow.vacant (h : ClearedBelow m pt 256 m')
    (hclean : ∀ i < 256, (readEntry m pt i).present = false → (readEntry m pt i).addr = 0) {i : ℕ}
    (hi : i < 256) : (readEntry m' pt i).vacant = true := by
  rw [h i (by omega), if_pos hi]
  unfold PageTableEntry.cleared PageTableEntry.vacant
  cases hp : (readEntry m pt i).present with
  | false => simp [hp, hclean i hi hp]
  | true => simp

theorem archVaspaceClear_post (h : WellFormed s pt) : Post (archVaspaceClear s pt)
      (fun s' => Released s ((ownedFrames s.mem pt).erase pt) (ownedFrames s.mem pt) s' ∧
        (∀ i < 256, (readEntry s'.mem pt i).vacant = true) ∧
        ∀ i, 256 ≤ i → i < 512 → readEntry s'.mem pt i = readEntry s.mem pt i)
      (fun _ => False) := by
  have hsub : below slots (presentLinks s.mem) 4 pt ⊆ ownedFrames s.mem pt := by
    rw [ownedFrames_eq]
    exact subset_insert _ _
  apply (clearEntries_post 4 pt s h.distinct fun f hf => h.lt_pages (hsub hf)).mono_ok
  rintro s' ⟨hrel, hentries⟩
  have hcleared : ClearedBelow s.mem pt 256 s'.mem := hentries (by decide)
  refine ⟨?_, fun i hi => hcleared.vacant h.clean hi, fun i h1 h2 => ?_⟩
  · rwa [ownedFrames_eq, erase_insert h.distinct.not_mem_below, ← ownedFrames_eq]
  · rw [hcleared i h2, if_neg (by omega)]

theorem vmmIsPageFree_of_vacant (h : ∀ i < 256, (readEntry m pt i).vacant = true)
    (hv : v < VMM_USER_END) : vmmIsPageFree m pt v = true := by
  have hlt : v / 4096 / 512 / 512 / 512 % 512 < 256 := (validPath_pagePath hv).1
  simp [vmmIsPageFree, archMmIsPageFree, mmIndexer, h _ hlt]

/-- Tear-down frees exactly what is owned, and undoes a clone. -/
theorem arch_vaspace_teardown_exact (s : Machine) (pt : ℕ) (h : WellFormed s pt) :
    (∃ s', archVaspaceDestroy s pt = .ok s' ∧
      Released s (ownedFrames s.mem pt) (ownedFrames s.mem pt) s') ∧
    (∃ s', archVaspaceClear s pt = .ok s' ∧
      Released s ((ownedFrames s.mem pt).erase pt) (ownedFrames s.mem pt) s' ∧
      (∀ v < VMM_USER_END, vmmIsPageFree s'.mem pt v = true) ∧
      ∀ i, 256 ≤ i → i < 512 → readEntry s'.mem pt i = readEntry s.mem pt i) ∧
    ∀ kernelPT ∈ s.pmm.setBits, ∀ clone s', archVaspaceClone s kernelPT pt = .ok (clone, s') →
      ∃ s'', archVaspaceDestroy s' clone = .ok s'' ∧ s''.pmm.bitmap = s.pmm.bitmap ∧
        s''.pmm.usedPages = s.pmm.usedPages ∧ s''.pmm.freePages = s.pmm.freePages := by
  refine ⟨(archVaspaceDestroy_post h.distinct fun f hf => h.lt_pages hf).returns, ?_, ?_⟩
  · obtain ⟨s', hcall, hrel, hvacant, hupper⟩ := (archVaspaceClear_post h).returns
    exact ⟨s', hcall, hrel, fun v hv => vmmIsPageFree_of_vacant hvacant hv, hupper⟩
  intro kernelPT hk clone s' hclone
  obtain ⟨hacq, -, hdistinct, -⟩ := (archVaspaceClone_post h hk).of_ok hclone
  have hlt : ∀ f ∈ ownedFrames s'.mem clone, f < s'.pmm.pages :=
    fun f hf => Pmm.lt_pages_of_test (Pmm.mem_setBits.mp (hacq.taken hf))
  obtain ⟨s'', hcall, hrel⟩ := (archVaspaceDestroy_post hdistinct hlt).returns
  exact ⟨s'', hcall, hacq.released hrel⟩

theorem arch_vaspace_teardown_exact_onePage :
    WellFormed onePage 1 ∧
      ∃ s', archVaspaceDestroy onePage 1 = .ok s' ∧ s'.pmm.setBits = {6} := by
  obtain ⟨hwf, howned⟩ := wellFormed_onePage
  obtain ⟨⟨s', hcall, hrel⟩, -⟩ := arch_vaspace_teardown_exact onePage 1 hwf
  refine ⟨hwf, s', hcall, ?_⟩
  rw [hrel.setBits, howned]
  decide

end GarnOS
