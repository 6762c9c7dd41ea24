import GarnOS.Acpi.Mappings
import GarnOS.Paging.PageMap

/-! The loops that map several pages. They count pages from the page of the first byte, as many as
the length rounded up has, and so miss the last page of a range that crosses one more boundary. -/
namespace GarnOS
open Function ByteMemory Outcome Finset PageTableEntry Walks Uacpi

def Present (m : Mem) (pt v : ℕ) : Prop := (translate m pt (pagePath v)).isSome

/-- The page of `w` is one of the `n` pages from that of `v` on. -/
def Visited (v n w : ℕ) : Prop := ∃ i < n, pageNumber w = pageNumber (v + i * 4096)

section Visits
variable {v n w i : ℕ} {m : Mem} {pt : ℕ}

theorem present_iff : Present m pt v ↔ (pageEntry m pt v).present = true := by
  rw [Present, ← Option.isSome_map (f := Prod.snd), translate_eq_follow, pagePath_eq,
    follow_eq_entryAt, ← pageEntry]
  cases (pageEntry m pt v).present <;> simp

@[simp] theorem pageNumber_mod (v : ℕ) : pageNumber (v % 2 ^ 64) = pageNumber v := by
  unfold pageNumber
  omega

theorem not_visited_zero : ¬Visited v 0 w := by
  rintro ⟨i, hi, -⟩
  exact absurd hi (Nat.not_lt_zero i)

theorem visited_succ :
    Visited v (n + 1) w ↔ pageNumber w = pageNumber (v + n * 4096) ∨ Visited v n w := by
  constructor
  · rintro ⟨i, hi, hw⟩
    obtain hlt | rfl := Nat.lt_succ_iff_lt_or_eq.mp hi
    · exact .inr ⟨i, hlt, hw⟩
    · exact .inl hw
  · rintro (hw | ⟨i, hi, hw⟩)
    · exact ⟨n, Nat.lt_succ_self n, hw⟩
    · exact ⟨i, Nat.lt_succ_of_lt hi, hw⟩

/-- The loops visit the page of every byte that lies in front of their end, and every page at all
once they have gone through all page numbers. -/
theorem visited_iff {x : ℕ} (hx : v % 4096 + x < 4096 * (n + 1)) :
    Visited v n (v + x) ↔ v % 4096 + x < 4096 * n ∨ 2 ^ 36 ≤ n := by
  unfold Visited pageNumber
  constructor
  · rintro ⟨i, hi, hw⟩
    omega
  · intro h
    by_cases hlt : (v % 4096 + x) / 4096 < n
    · exact ⟨(v % 4096 + x) / 4096, hlt, by omega⟩
    · exact ⟨n - 2 ^ 36, by omega, by omega⟩

end Visits

/-- The pages that a loop has mapped so far are present if the flags say so, and the others are as
they were. -/
structure Covers (s : Machine) (pt v n : ℕ) (flags : BitVec 32) (s' : Machine) : Prop where
  tree : PageTree s' pt
  visited : ∀ w, Visited v n w → (Present s'.mem pt w ↔ flags &&& VMM_PRESENT ≠ 0)
  others : ∀ w, ¬Visited v n w → (Present s'.mem pt w ↔ Present s.mem pt w)

section Loops
variable {s u : Machine} {pt v n : ℕ} {flags : BitVec 32}

theorem Covers.all_present_iff {s' : Machine} (h : Covers s pt v n flags s') {length : ℕ}
    (hlength : 0 < length) (hn : n = (length + 4095) / 4096) :
    (∀ x < length, Present s'.mem pt (v + x)) ↔
      flags &&& VMM_PRESENT ≠ 0 ∧ (v % 4096 + length ≤ 4096 * n ∨ 2 ^ 36 ≤ n ∨
        Present s.mem pt (v + (length - 1))) := by
  have hvisited : ∀ x < length, Visited v n (v + x) ↔ v % 4096 + x < 4096 * n ∨ 2 ^ 36 ≤ n :=
    fun x hx => visited_iff (by omega)
  constructor
  · intro hall
    have hfirst : Visited v n (v + 0) := (hvisited 0 hlength).mpr (by omega)
    refine ⟨(h.visited _ hfirst).mp (hall 0 hlength), ?_⟩
    by_cases hlast : Visited v n (v + (length - 1))
    · obtain hlt | hall := (hvisited _ (by omega)).mp hlast
      · exact .inl (by omega)
      · exact .inr (.inl hall)
    · exact .inr (.inr ((h.others _ hlast).mp (hall _ (by omega))))
  · rintro ⟨hflags, hcond⟩ x hx
    by_cases hx' : Visited v n (v + x)
    · exact (h.visited _ hx').mpr hflags
    · rw [h.others _ hx']
      rw [hvisited x hx, not_or] at hx'
      -- only the page of the last byte is missed
      have hlast := (hcond.resolve_left (by omega)).resolve_left hx'.2
      rw [present_iff] at hlast ⊢
      rwa [pageEntry_congr (v := v + x) (w := v + (length - 1))]
      unfold pageNumber
      omega

theorem Covers.zero (h : PageTree s pt) : Covers s pt v 0 flags s :=
  ⟨h, fun _ hw => absurd hw not_visited_zero, fun _ _ => Iff.rfl⟩

theorem Covers.succ {s' : Machine} {physAddr : ℕ} (h : Covers s pt v n flags u) (h' : PageTree s' pt)
    (hpages : ∀ w, pageEntry s'.mem pt w = if pageNumber w = pageNumber (v + n * 4096) then
      mappedEntry physAddr flags (pageEntry u.mem pt w) else pageEntry u.mem pt w) :
    Covers s pt v (n + 1) flags s' := by
  have hpresent : ∀ w, Present s'.mem pt w ↔ if pageNumber w = pageNumber (v + n * 4096) then
      flags &&& VMM_PRESENT ≠ 0 else Present u.mem pt w := by
    intro w
    rw [present_iff, present_iff, hpages w]
    split
    · exact bne_iff_ne
    · rfl
  refine ⟨h', fun w hw => ?_, fun w hw => ?_⟩
  · rw [hpresent]
    split
    · rfl
    · next hne => exact h.visited w ((visited_succ.mp hw).resolve_left hne)
  · rw [visited_succ, not_or] at hw
    rw [hpresent, if_neg hw.1]
    exact h.others w hw.2

theorem vmmMapRange_post (h : PageTree s pt) (physAddr v length : ℕ) (flags : BitVec 32) :
    Post (vmmMapRange s pt physAddr v length flags)
      (Covers s pt v ((length + 4095) / 4096) flags)
      (fun e => e = outOfMemory ∧ s.pmm.clearBits.card < 3 * ((length + 4095) / 4096) ∨
        e = .diverges ∧ 2 ^ 64 - PAGE_SIZE < length) := by
  unfold vmmMapRange
  split
  · next hlong => exact post_error.mpr (.inr ⟨rfl, hlong⟩)
  · refine (forRange_post (fun i u => Covers s pt v i flags u ∧
      s.pmm.clearBits.card ≤ u.pmm.clearBits.card + 3 * i) ⟨Covers.zero h, le_rfl⟩ ?_).mono_ok ?_
    · rintro i u - hi ⟨hu, hcard⟩
      refine (hu.tree.map_post _ _ flags).mono ?_ fun e he => .inl ⟨he.1, ?_⟩
      · rintro s' ⟨h', ⟨A, hA, hgrown, -⟩, hpages⟩
        simp only [pageNumber_mod] at hpages
        have hclear := hgrown.acq.card_clearBits
        exact ⟨hu.succ h' hpages, by omega⟩
      · have := he.2
        unfold PAGE_SIZE at hi
        omega
    · intro u hu
      rw [Nat.zero_add] at hu
      exact hu.1

end Loops

/-- The first `n` pages from `v` on are backed by the frames `F 0`, …, `F (n - 1)`, which were free
and are all different. The frames `T` were hung in as tables. -/
structure Backed (s : Machine) (pt v n : ℕ) (flags : BitVec 32) (F : ℕ → ℕ) (T : Finset ℕ)
    (s' : Machine) : Prop where
  tree : PageTree s' pt
  acq : Acquired s ((range n).image F ∪ T) s'.pmm.setBits s'
  inj : ∀ i < n, ∀ j < n, F i = F j → i = j
  apart : ∀ i < n, F i ∉ T
  tables : ∀ x, IsTable s'.mem pt x → IsTable s.mem pt x ∨ x ∈ T
  card : T.card ≤ 3 * n
  pages : ∀ w, Visited v n w → ∃ i < n, pageNumber w = pageNumber (v + i * 4096) ∧
    ∃ e, pageEntry s'.mem pt w = mappedEntry (F i * 4096) flags e
  others : ∀ w, ¬Visited v n w → pageEntry s'.mem pt w = pageEntry s.mem pt w

section Fresh
variable {s u : Machine} {pt v n : ℕ} {flags : BitVec 32} {F : ℕ → ℕ} {T : Finset ℕ}

theorem PageTree.mapFresh_post (h : PageTree s pt) (v : ℕ) (flags : BitVec 32) :
    Post (do let (physAddr, s) ← pmmAllocate s 1
             vmmMap s pt physAddr v flags)
      (fun s' => PageTree s' pt ∧ ∃ (f : ℕ) (A : Finset ℕ), A.card ≤ 3 ∧ f ∉ A ∧
        Acquired s (insert f A) s'.pmm.setBits s' ∧
        (∀ x, IsTable s'.mem pt x → IsTable s.mem pt x ∨ x ∈ A) ∧
        ∀ w, pageEntry s'.mem pt w = if pageNumber w = pageNumber v then
          mappedEntry (f * 4096) flags (pageEntry s.mem pt w) else pageEntry s.mem pt w)
      (fun e => e = outOfMemory ∧ s.pmm.clearBits.card < 4) := by
  apply ((pmmAllocate_one_post s).mono_error fun e he => ⟨he.1, by omega⟩).bind
  rintro ⟨base, u⟩ ⟨f, rfl, -, hfree, hacq, hmem⟩
  have hkept : ∀ x, IsTable s.mem pt x → FrameEq s.mem u.mem x ∧ x ∈ u.pmm.setBits := by
    intro x hx
    rw [hmem]
    exact ⟨FrameEq.refl _ x, hacq.keeps (h.isTable_used hx)⟩
  obtain ⟨hu, htables, hentries⟩ := h.congr (hacq.addressable h.addressable) hkept
  refine (hu.map_post (f * 4096) v flags).mono ?_ fun e he => ⟨he.1, ?_⟩
  · rintro s' ⟨h', ⟨A, hA, hgrown, -⟩, hpages⟩
    have hapart : f ∉ A := disjoint_left.mp hgrown.acq.fresh (hacq.taken (mem_singleton_self f))
    refine ⟨h', f, A, hA, hapart, ?_, fun x hx => ?_, fun w => ?_⟩
    · exact (hacq.trans hgrown.acq).mono (union_subset (empty_subset _) Subset.rfl)
    · exact (hgrown.isTable hx).imp_left (htables x).mp
    · rw [hpages w, hentries w]
  · have hcard := hacq.card_clearBits
    rw [card_singleton] at hcard
    have := he.2
    omega

theorem Backed.zero (h : PageTree s pt) : Backed s pt v 0 flags F ∅ s where
  tree := h
  acq := by
    rw [range_zero, image_empty, union_empty]
    exact Acquired.refl s _
  inj i hi := absurd hi (Nat.not_lt_zero i)
  apart i hi := absurd hi (Nat.not_lt_zero i)
  tables x hx := .inl hx
  card := Nat.zero_le _
  pages w hw := absurd hw not_visited_zero
  others w _ := rfl

theorem update_inj {f : ℕ} (h : ∀ i < n, ∀ j < n, F i = F j → i = j) (hf : ∀ i < n, F i ≠ f) :
    ∀ i < n + 1, ∀ j < n + 1, update F n f i = update F n f j → i = j := by
  intro i hi j hj hij
  rw [update_apply, update_apply] at hij
  split_ifs at hij with hin hjn hjn
  · rw [hin, hjn]
  · exact absurd hij.symm (hf j (by omega))
  · exact absurd hij (hf i (by omega))
  · exact h i (by omega) j (by omega) hij

theorem Backed.succ {s' : Machine} {f : ℕ} {A : Finset ℕ} (h : Backed s pt v n flags F T u)
    (h' : PageTree s' pt) (hA : A.card ≤ 3) (hf : f ∉ A)
    (hacq : Acquired u (insert f A) s'.pmm.setBits s')
    (htables : ∀ x, IsTable s'.mem pt x → IsTable u.mem pt x ∨ x ∈ A)
    (hpages : ∀ w, pageEntry s'.mem pt w = if pageNumber w = pageNumber (v + n * 4096) then
      mappedEntry (f * 4096) flags (pageEntry u.mem pt w) else pageEntry u.mem pt w) :
    Backed s pt v (n + 1) flags (update F n f) (T ∪ A) s' := by
  have hbefore : ∀ i < n, update F n f i = F i := fun i hi => update_of_ne hi.ne _ _
  have himage : (range (n + 1)).image (update F n f) = insert f ((range n).image F) := by
    rw [range_add_one, image_insert, update_self]
    exact congrArg (insert f) (image_congr fun i hi => hbefore i (mem_range.mp hi))
  have hused : ∀ i < n, F i ∈ u.pmm.setBits := fun i hi =>
    h.acq.taken (mem_union_left _ (mem_image_of_mem F (mem_range.mpr hi)))
  have hfresh : ∀ x ∈ insert f A, x ∉ u.pmm.setBits := fun x hx hset =>
    disjoint_left.mp hacq.fresh hset hx
  have hf' : ∀ i < n, F i ≠ f := fun i hi he => hfresh f (mem_insert_self f A) (he ▸ hused i hi)
  constructor
  · exact h'
  · have hset : (range (n + 1)).image (update F n f) ∪ (T ∪ A) =
        (range n).image F ∪ T ∪ insert f A := by
      rw [himage, insert_union, union_insert, union_assoc]
    rw [hset]
    exact (h.acq.trans hacq).mono (union_subset hacq.keeps Subset.rfl)
  · exact update_inj h.inj hf'
  · intro i hi
    rw [mem_union, not_or]
    obtain hi' | rfl := Nat.lt_succ_iff_lt_or_eq.mp hi
    · rw [hbefore i hi']
      exact ⟨h.apart i hi', fun hin => hfresh _ (mem_insert_of_mem hin) (hused i hi')⟩
    · rw [update_self]
      exact ⟨fun hin => hfresh f (mem_insert_self f A) (h.acq.taken (mem_union_right _ hin)), hf⟩
  · intro x hx
    obtain hx | hx := htables x hx
    · exact (h.tables x hx).imp_right (mem_union_left _)
    · exact .inr (mem_union_right _ hx)
  · have hunion := card_union_le T A
    have hT := h.card
    omega
  · intro w hw
    by_cases hlast : pageNumber w = pageNumber (v + n * 4096)
    · refine ⟨n, Nat.lt_succ_self n, hlast, pageEntry u.mem pt w, ?_⟩
      rw [hpages w, if_pos hlast, update_self]
    · obtain ⟨i, hi, hnumber, e, he⟩ := h.pages w ((visited_succ.mp hw).resolve_left hlast)
      refine ⟨i, Nat.lt_succ_of_lt hi, hnumber, e, ?_⟩
      rw [hpages w, if_neg hlast, he, hbefore i hi]
  · intro w hw
    rw [visited_succ, not_or] at hw
    rw [hpages w, if_neg hw.1]
    exact h.others w hw.2

theorem mapFreshPages_backed (h : PageTree s pt) (v n : ℕ) (flags : BitVec 32) :
    Post (mapFreshPages pt v n flags s) (fun s' => ∃ F T, Backed s pt v n flags F T s')
      (fun e => e = outOfMemory ∧ s.pmm.clearBits.card < 4 * n) := by
  refine (forRange_post (fun i u => ∃ F T, Backed s pt v i flags F T u)
    ⟨id, ∅, Backed.zero h⟩ ?_).mono_ok ?_
  · rintro i u - hi ⟨F, T, hu⟩
    refine (hu.tree.mapFresh_post _ flags).mono ?_ fun e he => ⟨he.1, ?_⟩
    · rintro s' ⟨h', f, A, hA, hf, hacq, htables, hpages⟩
      simp only [pageNumber_mod] at hpages
      exact ⟨_, _, hu.succ h' hA hf hacq htables hpages⟩
    · have hcard := hu.acq.card_clearBits
      have hunion := card_union_le ((range i).image F) T
      have himage := card_image_le (s := range i) (f := F)
      rw [card_range] at himage
      have hT := hu.card
      omega
  · intro u hu
    rwa [Nat.zero_add] at hu

section
variable {s' : Machine} {j : ℕ} (h : Backed s pt v n flags F T s')
include h

theorem Backed.covers : Covers s pt v n flags s' := by
  refine ⟨h.tree, fun w hw => ?_, fun w hw => ?_⟩
  · obtain ⟨i, -, -, e, he⟩ := h.pages w hw
    rw [present_iff, he]
    exact bne_iff_ne
  · rw [present_iff, present_iff, h.others w hw]

theorem Backed.page_at (hn : n ≤ 2 ^ 36) (hj : j < n) :
    ∃ e, pageEntry s'.mem pt (v + j * 4096) = mappedEntry (F j * 4096) flags e := by
  obtain ⟨i, hi, hnumber, he⟩ := h.pages _ ⟨j, hj, rfl⟩
  obtain rfl : i = j := by
    unfold pageNumber at hnumber
    omega
  exact he

theorem Backed.frame_lt (hj : j < n) : F j ∈ s'.pmm.setBits ∧ F j < s'.pmm.pages := by
  have hset := h.acq.taken (mem_union_left T (mem_image_of_mem F (mem_range.mpr hj)))
  exact ⟨hset, Pmm.lt_pages_of_test (Pmm.mem_setBits.mp hset)⟩

theorem Backed.fresh (hj : j < n) : F j ∉ s.pmm.setBits := fun hset =>
  disjoint_left.mp h.acq.fresh hset (mem_union_left T (mem_image_of_mem F (mem_range.mpr hj)))

theorem Backed.virtToPhys (hn : n ≤ 2 ^ 36) (hflags : flags &&& VMM_PRESENT ≠ 0) (hj : j < n) :
    vmmVirtToPhys s'.mem pt (v + j * 4096) = F j * 4096 := by
  obtain ⟨e, he⟩ := h.page_at hn hj
  have hmod := h.tree.addressable.frame_mod (h.frame_lt hj).2
  rw [vmmVirtToPhys, h.tree.virtToPhys, he, phys_mappedEntry hflags,
    Nat.mul_div_cancel (F j) (by decide), hmod]

end

theorem createArea_pages {size : ℕ} (h : size < 2 ^ 64) :
    (if size % PAGE_SIZE ≠ 0 then ALIGN_UP size PAGE_SIZE else size) / PAGE_SIZE =
      if size ≤ 2 ^ 64 - PAGE_SIZE then (size + 4095) / 4096 else 0 := by
  unfold ALIGN_UP PAGE_SIZE
  split_ifs <;> omega

theorem vaspaceCreateArea_backed (h : PageTree s pt) (v : ℕ) {size : ℕ} (hsize : size < 2 ^ 64)
    (flags : BitVec 32) :
    Post (vaspaceCreateArea s pt v size flags)
      (fun s' => ∃ F T, Backed s pt v (if size ≤ 2 ^ 64 - PAGE_SIZE then (size + 4095) / 4096 else 0)
        flags F T s')
      (fun e => e = outOfMemory ∧ s.pmm.clearBits.card < 4 * ((size + 4095) / 4096)) := by
  unfold vaspaceCreateArea
  dsimp only
  rw [createArea_pages hsize]
  refine (mapFreshPages_backed h v _ flags).mono_error fun e he => ⟨he.1, ?_⟩
  have hlt := he.2
  split at hlt
  · exact hlt
  · omega

end Fresh

/-- A loop over the pages of `length` bytes from `virtAddr` on makes them present if the flags say so
and it reaches the page of the last byte, or needs not to. -/
def RangeFits (s : Machine) (pt virtAddr length : ℕ) (flags : BitVec 32) : Prop :=
  flags &&& VMM_PRESENT ≠ 0 ∧ (virtAddr % 4096 + length ≤ 4096 * ((length + 4095) / 4096) ∨
    2 ^ 36 ≤ (length + 4095) / 4096 ∨ Present s.mem pt (virtAddr + (length - 1)))

/-- When `vmm_map_range` and `vaspace_create_area` make every byte of the range present. -/
theorem range_mapping_covers_iff {s : Machine} {pt : ℕ} (h : PageTree s pt)
    (physAddr virtAddr : ℕ) {length : ℕ} (hpos : 0 < length) (hlength : length < 2 ^ 64)
    (flags : BitVec 32) :
    Post (vmmMapRange s pt physAddr virtAddr length flags)
      (fun s' => (∀ x < length, Present s'.mem pt (virtAddr + x)) ↔
        RangeFits s pt virtAddr length flags)
      (fun e => e = outOfMemory ∧ s.pmm.clearBits.card < 3 * ((length + 4095) / 4096) ∨
        e = .diverges ∧ 2 ^ 64 - PAGE_SIZE < length) ∧
    Post (vaspaceCreateArea s pt virtAddr length flags)
      (fun s' => (∀ x < length, Present s'.mem pt (virtAddr + x)) ↔
        if length ≤ 2 ^ 64 - PAGE_SIZE then RangeFits s pt virtAddr length flags
        else ∀ x < length, Present s.mem pt (virtAddr + x))
      (fun e => e = outOfMemory ∧ s.pmm.clearBits.card < 4 * ((length + 4095) / 4096)) := by
  constructor
  · refine (vmmMapRange_post h physAddr virtAddr length flags).mono_ok fun s' hs => ?_
    exact hs.all_present_iff hpos rfl
  · refine (vaspaceCreateArea_backed h virtAddr hlength flags).mono_ok ?_
    rintro s' ⟨F, T, hs⟩
    split at hs
    · next hround =>
      rw [if_pos hround]
      exact hs.covers.all_present_iff hpos rfl
    · next hround =>
      rw [if_neg hround]
      exact forall₂_congr fun x _ => hs.covers.others _ not_visited_zero

theorem not_present_emptyRoot (v : ℕ) : ¬Present emptyRoot.mem 1 v := by
  rw [present_iff, pageEntry_emptyRoot, empty_present]
  exact Bool.false_ne_true

theorem range_mapping_covers_page : (PageTree emptyRoot 1 ∧ 0 < 0x1000 ∧ 0x1000 < 2 ^ 64) ∧
    ∃ s', vmmMapRange emptyRoot 1 0x5000 0x2000 0x1000 VMM_PRESENT = .ok s' ∧
      ∀ x < 0x1000, Present s'.mem 1 (0x2000 + x) := by
  refine ⟨⟨pageTree_emptyRoot, by decide, by decide⟩, ?_⟩
  have hpost := (range_mapping_covers_iff pageTree_emptyRoot 0x5000 0x2000
    (show 0 < 0x1000 by decide) (by decide) VMM_PRESENT).1
  obtain ⟨s', hs', hall⟩ := hpost.returns_of_not fun e he => by
    obtain ⟨-, hcard⟩ | ⟨-, hlong⟩ := he
    · exact absurd hcard (by decide)
    · exact absurd hlong (by decide)
  exact ⟨s', hs', hall.mpr ⟨by decide, .inl (by decide)⟩⟩

/-- A page of bytes that starts inside a page: both loops map one page, and the second half of the
bytes stays unmapped. -/
theorem unaligned_range_not_covered :
    (∃ s', vmmMapRange emptyRoot 1 0x5800 0x1800 0x1000 VMM_PRESENT = .ok s' ∧
      ¬∀ x < 0x1000, Present s'.mem 1 (0x1800 + x)) ∧
    ∃ s', vaspaceCreateArea emptyRoot 1 0x1800 0x1000 VMM_PRESENT = .ok s' ∧
      ¬∀ x < 0x1000, Present s'.mem 1 (0x1800 + x) := by
  have hmissed : ∀ s', Covers emptyRoot 1 0x1800 1 VMM_PRESENT s' →
      ¬∀ x < 0x1000, Present s'.mem 1 (0x1800 + x) := by
    intro s' hs hall
    have hlast := hall 0xfff (by decide)
    rw [hs.others _ (by rintro ⟨i, hi, hw⟩; interval_cases i; exact absurd hw (by decide))] at hlast
    exact not_present_emptyRoot _ hlast
  constructor
  · have hpost := vmmMapRange_post pageTree_emptyRoot 0x5800 0x1800 0x1000 VMM_PRESENT
    obtain ⟨s', hs', hcovers⟩ := hpost.returns_of_not fun e he => by
      obtain ⟨-, hcard⟩ | ⟨-, hlong⟩ := he
      · exact absurd hcard (by decide)
      · exact absurd hlong (by decide)
    exact ⟨s', hs', hmissed s' hcovers⟩
  · have hpost := vaspaceCreateArea_backed pageTree_emptyRoot 0x1800 (show 0x1000 < 2 ^ 64 by decide)
      VMM_PRESENT
    obtain ⟨s', hs', F, T, hbacked⟩ := hpost.returns_of_not fun e he => absurd he.2 (by decide)
    exact ⟨s', hs', hmissed s' hbacked.covers⟩

end GarnOS
