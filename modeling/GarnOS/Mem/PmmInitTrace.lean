import GarnOS.Mem.PmmAlloc
import GarnOS.Mem.PmmInit

/-! The bitmap bytes that `pmm_init` touches. The size of the bitmap is rounded down to whole bytes,
and the loop over its own pages includes the page at its end. -/
namespace GarnOS
open ByteMemory Outcome Finset List PmmBoot

/-! The functions of `pmm_init` once more, with a log of the bitmap indices that they read and
write. -/
namespace PmmBoot

def bitmapClearLogged (st : PmmBoot × List ℕ) (page : ℕ) : Except Fault (PmmBoot × List ℕ) := do
  let s ← st.1.bitmapClear page
  return (s, st.2 ++ [page / 8])

def bitmapSetLogged (st : PmmBoot × List ℕ) (page : ℕ) : Except Fault (PmmBoot × List ℕ) := do
  let s ← st.1.bitmapSet page
  return (s, st.2 ++ [page / 8])

def openEntryLogged (st : PmmBoot × List ℕ) (e : MemmapEntry) :
    Except Fault (PmmBoot × List ℕ) :=
  if e.type ≠ .usable then .ok st
  else forRange (fun j st => do
    let (s, log) ← bitmapClearLogged st j
    return ({ s with usablePages := s.usablePages + 1 }, log))
    (e.base / 4096) ((e.base + e.length) / 4096 - e.base / 4096) st

def closeBitmapLogged (st : PmmBoot × List ℕ) : Except Fault (PmmBoot × List ℕ) :=
  forRange (fun k st => do
    let (s, log) ← bitmapSetLogged st ((st.1.bitmap + k * PAGE_SIZE) / PAGE_SIZE)
    return ({ s with usablePages := s.usablePages - 1 }, log)) 0 (st.1.bitmapSize / PAGE_SIZE + 1) st

theorem openEntryLogged_fst (st : PmmBoot × List ℕ) (e : MemmapEntry) :
    (openEntryLogged st e).map Prod.fst = st.1.openEntry e := by
  unfold openEntryLogged openEntry
  split
  · rfl
  · refine forRange_map (fun j st => ?_) _ _ st
    unfold bitmapClearLogged
    cases st.1.bitmapClear j <;> rfl

theorem closeBitmapLogged_fst (st : PmmBoot × List ℕ) :
    (closeBitmapLogged st).map Prod.fst = st.1.closeBitmap := by
  refine forRange_map (fun k st => ?_) _ _ st
  unfold bitmapSetLogged
  cases st.1.bitmapSet _ <;> rfl

end PmmBoot

def pmmInitLogged (mem : Mem) (map : List MemmapEntry) : Except Fault (PmmBoot × List ℕ) :=
  match map.find? fun e => e.type = .usable ∧ ¬e.length < bitmapBytes map with
  | none => .error (.panic "Not enough free memory to allocate for bitmap." "PMM" [])
  | some e => do
    let s : PmmBoot := ⟨memset mem e.base 0xff (bitmapBytes map), e.base, bitmapBytes map,
      BitVec.ofNat 64 (bitmapBytes map * 8), 0, 0, bitmapBytes_lt map⟩
    let st ← map.foldlM openEntryLogged (s, [])
    closeBitmapLogged st

theorem pmmInitLogged_fst (mem : Mem) (map : List MemmapEntry) :
    (pmmInitLogged mem map).map Prod.fst = pmmInit mem map := by
  unfold pmmInitLogged pmmInit
  cases map.find? fun e => e.type = .usable ∧ ¬e.length < bitmapBytes map with
  | none => rfl
  | some e =>
    dsimp only
    rw [← foldlM_map openEntryLogged_fst map (_, [])]
    cases map.foldlM openEntryLogged _ with
    | error e => rfl
    | ok st => exact closeBitmapLogged_fst st

/-- The pages of an entry that `pmm_init` clears, in its order. -/
def MemmapEntry.openPages (e : MemmapEntry) : List ℕ :=
  if e.type = .usable then
    range' (e.base / 4096) ((e.base + e.length) / 4096 - e.base / 4096)
  else []

/-- The pages that it sets again for a bitmap of `bitmapSize` bytes at `bitmap`. -/
def closePages (bitmap bitmapSize : ℕ) : List ℕ :=
  range' (bitmap / 4096) (bitmapSize / 4096 + 1)

/-- Since `s` there were `c` clearing and `d` setting accesses, to the bytes of `pages`. -/
structure Counted (s : PmmBoot) (c d : ℕ) (pages : List ℕ) (st : PmmBoot × List ℕ) : Prop where
  keeps : s.Keeps st.1
  used : st.1.usedPages = s.usedPages - BitVec.ofNat 64 c + BitVec.ofNat 64 d
  free : st.1.freePages = s.freePages + BitVec.ofNat 64 c - BitVec.ofNat 64 d
  log : st.2 = pages.map (· / 8)

section Counts
variable {s : PmmBoot} {st : PmmBoot × List ℕ} {c d : ℕ} {pages : List ℕ}

section
variable (h : Counted s c d pages st)
include h

theorem Counted.bit (page : ℕ) :
    Post (bitmapClearLogged st page) (Counted s (c + 1) d (pages ++ [page]))
        (fun _ => True) ∧
      Post (bitmapSetLogged st page) (Counted s c (d + 1) (pages ++ [page]))
        fun _ => True := by
  unfold bitmapClearLogged bitmapSetLogged bitmapClear bitmapSet
  split
  · exact ⟨post_error.mpr trivial, post_error.mpr trivial⟩
  constructor
  all_goals
    refine post_ok.mpr ⟨⟨h.keeps.bitmap, h.keeps.bitmapSize⟩, ?_, ?_, ?_⟩
    · rw [h.used, BitVec.ofNat_add]
      bv_omega
    · rw [h.free, BitVec.ofNat_add]
      bv_omega
    · rw [h.log, map_append, List.map_singleton]

theorem Counted.openEntry (e : MemmapEntry) : Post (openEntryLogged st e)
      (Counted s (c + e.openPages.length) d (pages ++ e.openPages)) fun _ => True := by
  unfold openEntryLogged MemmapEntry.openPages
  by_cases htype : e.type = .usable
  · rw [if_neg (not_not.mpr htype), if_pos htype, length_range']
    refine (forRange_post (fun j u => Counted s (c + (j - e.base / 4096)) d
      (pages ++ range' (e.base / 4096) (j - e.base / 4096)) u) ?_ ?_).mono_ok ?_
    · simpa using h
    · intro j u hlo _ hu
      have hsucc : j + 1 - e.base / 4096 = j - e.base / 4096 + 1 := by omega
      have hend : e.base / 4096 + (j - e.base / 4096) = j := by omega
      rw [hsucc, range'_1_concat, hend, ← append_assoc, ← Nat.add_assoc]
      refine (hu.bit j).1.bind fun w hw => post_ok.mpr ?_
      exact ⟨⟨hw.keeps.bitmap, hw.keeps.bitmapSize⟩, hw.used, hw.free, hw.log⟩
    · intro u hu
      rwa [Nat.add_sub_cancel_left] at hu
  · rw [if_pos htype, if_neg htype, append_nil]
    exact post_ok.mpr h

theorem Counted.openEntries (map : List MemmapEntry) : Post (map.foldlM openEntryLogged st)
      (Counted s (c + (map.flatMap (·.openPages)).length) d (pages ++ map.flatMap (·.openPages)))
      fun _ => True := by
  induction map generalizing st c pages with
  | nil =>
    rw [flatMap_nil, append_nil]
    exact post_ok.mpr h
  | cons e map ih =>
    rw [foldlM_cons, flatMap_cons, length_append, ← append_assoc,
      ← Nat.add_assoc]
    exact (h.openEntry e).bind fun u hu => ih hu

end

theorem Counted.closeBitmap (h : Counted s c 0 pages st) :
    Post (closeBitmapLogged st)
      (Counted s c (closePages s.bitmap s.bitmapSize).length
        (pages ++ closePages s.bitmap s.bitmapSize)) fun _ => True := by
  unfold closeBitmapLogged closePages PAGE_SIZE
  rw [h.keeps.bitmapSize, length_range']
  refine (forRange_post (fun k u => Counted s c k (pages ++ range' (s.bitmap / 4096) k) u)
    ?_ ?_).mono_ok ?_
  · simpa using h
  · intro k u _ _ hu
    have hpage : (u.1.bitmap + k * 4096) / 4096 = s.bitmap / 4096 + k := by
      rw [hu.keeps.bitmap]
      omega
    rw [hpage, range'_1_concat, ← append_assoc]
    refine (hu.bit _).2.bind fun w hw => post_ok.mpr ?_
    exact ⟨⟨hw.keeps.bitmap, hw.keeps.bitmapSize⟩, hw.used, hw.free, hw.log⟩
  · intro u hu
    rwa [Nat.zero_add] at hu

end Counts

section Pages
variable {map : List MemmapEntry} {e : MemmapEntry} {q : ℕ}

theorem mem_openPages (haligned : e.type = .usable → e.base % PAGE_SIZE = 0) :
    q ∈ e.openPages ↔ e.Contains q := by
  unfold MemmapEntry.openPages MemmapEntry.Contains PAGE_SIZE
  unfold PAGE_SIZE at haligned
  by_cases htype : e.type = .usable
  · have := haligned htype
    simp only [htype, ↓reduceIte, mem_range'_1, true_and]
    omega
  · simp [htype]

theorem mem_flatMap_openPages
    (haligned : ∀ e ∈ map, e.type = .usable → e.base % PAGE_SIZE = 0 ∧ e.length % PAGE_SIZE = 0) :
    q ∈ map.flatMap (·.openPages) ↔ ∃ e ∈ map, e.Contains q := by
  rw [mem_flatMap]
  exact exists_congr fun e => and_congr_right fun he =>
    mem_openPages fun htype => (haligned e he htype).1

theorem mem_closePages {bitmap bitmapSize : ℕ} (haligned : bitmap % PAGE_SIZE = 0) :
    q ∈ closePages bitmap bitmapSize ↔
      bitmap / PAGE_SIZE ≤ q ∧ q ≤ (bitmap + bitmapSize) / PAGE_SIZE := by
  unfold closePages PAGE_SIZE
  unfold PAGE_SIZE at haligned
  rw [mem_range'_1]
  omega

theorem openPages_nodup (hsorted : map.Pairwise fun e e' =>
      e.type = .usable → e'.type = .usable → e.base + e.length ≤ e'.base) :
    (map.flatMap (·.openPages)).Nodup := by
  rw [nodup_flatMap]
  constructor
  · intro e _
    unfold MemmapEntry.openPages
    split
    · exact nodup_range'
    · exact nodup_nil
  · refine hsorted.imp fun {e e'} hle q hq hq' => ?_
    dsimp only [MemmapEntry.openPages] at hq hq'
    split_ifs at hq with htype
    · split_ifs at hq' with htype'
      · rw [mem_range'_1] at hq hq'
        have := hle htype htype'
        omega
      · cases hq'
    · cases hq

theorem pmmInitLogged_post (mem : Mem)
    (hfind : map.find? (fun e => e.type = .usable ∧ ¬e.length < bitmapBytes map) = some e) :
    Post (pmmInitLogged mem map) (fun r => r.1.bitmap = e.base ∧
      r.1.usedPages = BitVec.ofNat 64 (bitmapBytes map * 8) -
        BitVec.ofNat 64 (map.flatMap (·.openPages)).length +
        BitVec.ofNat 64 (closePages e.base (bitmapBytes map)).length ∧
      r.1.freePages = BitVec.ofNat 64 (map.flatMap (·.openPages)).length -
        BitVec.ofNat 64 (closePages e.base (bitmapBytes map)).length ∧
      r.2 = (map.flatMap (·.openPages) ++ closePages e.base (bitmapBytes map)).map (· / 8))
      (fun _ => True) := by
  have hstart : ∀ s, Counted s 0 0 [] (s, []) := fun s => ⟨⟨rfl, rfl⟩, by simp, by simp, rfl⟩
  unfold pmmInitLogged
  rw [hfind]
  apply ((hstart _).openEntries map).bind
  intro u hu
  rw [Nat.zero_add, nil_append] at hu
  refine hu.closeBitmap.mono_ok fun r hr => ⟨hr.keeps.bitmap, hr.used, ?_, hr.log⟩
  rw [hr.free]
  change 0#64 + _ - _ = _
  rw [BitVec.zero_add]

end Pages

theorem countsMatch_iff {s : PmmBoot} {O C : Finset ℕ}
    (hused : s.usedPages = BitVec.ofNat 64 (s.bitmapSize * 8) - BitVec.ofNat 64 O.card +
      BitVec.ofNat 64 C.card)
    (hfree : s.freePages = BitVec.ofNat 64 O.card - BitVec.ofNat 64 C.card)
    (hopen : O ⊆ range (8 * s.bitmapSize)) (hclose : C.card < 2 ^ 50)
    (hclear : s.pmm.clearBits = O \ C) : s.pmm.CountsMatch ↔ C ⊆ O := by
  have hcard : (O \ C).card + (C ∩ O).card = O.card := by
    rw [inter_comm]
    exact card_sdiff_add_card_inter O C
  have hsize := s.size_lt
  have hle := card_le_card hopen
  rw [card_range] at hle
  have hsum := s.pmm.card_setBits_add_card_clearBits
  rw [pages_pmm, hclear] at hsum
  have hsub : C ⊆ O ↔ (C ∩ O).card = C.card := by
    rw [← inter_eq_left]
    exact ⟨congrArg card, fun h => eq_of_subset_of_card_le inter_subset_left h.ge⟩
  rw [hsub]
  have husedNat : s.pmm.usedPages.toNat = s.bitmapSize * 8 - O.card + C.card := by
    change s.usedPages.toNat = _
    rw [hused]
    simp only [BitVec.toNat_add, BitVec.toNat_sub, BitVec.toNat_ofNat]
    omega
  have hfreeNat : s.pmm.freePages.toNat = (2 ^ 64 - C.card + O.card) % 2 ^ 64 := by
    change s.freePages.toNat = _
    rw [hfree]
    simp only [BitVec.toNat_sub, BitVec.toNat_ofNat]
    omega
  constructor
  · intro h
    have hmatch := h.used
    omega
  · intro h
    refine ⟨?_, ?_⟩
    · omega
    · rw [hclear]
      omega

section Accesses
variable {map : List MemmapEntry} {mem : Mem} {e : MemmapEntry} {r : PmmBoot × List ℕ}

theorem bitmapEntry_fits
    (hfind : map.find? (fun e => e.type = .usable ∧ ¬e.length < bitmapBytes map) = some e) :
    e ∈ map ∧ e.type = .usable ∧ bitmapBytes map ≤ e.length :=
  ⟨mem_of_find?_eq_some hfind, by simpa using find?_some hfind⟩

section
variable (h : MemmapOk map)
  (hfind : map.find? (fun e => e.type = .usable ∧ ¬e.length < bitmapBytes map) = some e)
include h hfind

theorem pmmInit_countsMatch_iff (hrun : pmmInitLogged mem map = .ok r)
    (hopen : ∀ e' ∈ map, ∀ q, e'.Contains q → q < 8 * bitmapBytes map) : r.1.pmm.CountsMatch ↔
      ∀ q ∈ closePages e.base (bitmapBytes map), ∃ e' ∈ map, e'.Contains q := by
  obtain ⟨hbitmap, hused, hfree, -⟩ := (pmmInitLogged_post mem hfind).of_ok hrun
  have hplain : pmmInit mem map = .ok r.1 := by
    rw [← pmmInitLogged_fst, hrun]
    rfl
  obtain ⟨hsize, hbits⟩ := (pmmInit_post mem h).of_ok hplain
  rw [hbitmap, hsize] at hbits
  have hmemO : ∀ q, q ∈ (map.flatMap (·.openPages)).toFinset ↔ ∃ e' ∈ map, e'.Contains q :=
    fun q => mem_toFinset.trans (mem_flatMap_openPages h.aligned)
  have hmemC : ∀ q, q ∈ (closePages e.base (bitmapBytes map)).toFinset ↔
      e.base / PAGE_SIZE ≤ q ∧ q ≤ (e.base + bitmapBytes map) / PAGE_SIZE := by
    obtain ⟨he, htype, -⟩ := bitmapEntry_fits hfind
    exact fun q => mem_toFinset.trans (mem_closePages (h.aligned e he htype).1)
  have hcardO := toFinset_card_of_nodup (openPages_nodup h.sorted)
  have hcardC : (closePages e.base (bitmapBytes map)).toFinset.card = _ :=
    toFinset_card_of_nodup nodup_range'
  rw [countsMatch_iff (O := (map.flatMap (·.openPages)).toFinset)
    (C := (closePages e.base (bitmapBytes map)).toFinset)]
  · exact forall_congr' fun q => imp_congr mem_toFinset (hmemO q)
  · rw [hcardO, hcardC, hsize, hused]
  · rw [hcardO, hcardC, hfree]
  · intro q hq
    obtain ⟨e', he', hcontains⟩ := (hmemO q).mp hq
    rw [Finset.mem_range, hsize]
    exact hopen e' he' q hcontains
  · have := bitmapBytes_lt map
    rw [hcardC, closePages, length_range']
    omega
  · ext q
    rw [Pmm.mem_clearBits, pages_pmm, hsize, mem_sdiff, hmemO, hmemC]
    constructor
    · exact fun hq => (hbits q hq.1).mp hq.2
    · intro hq
      obtain ⟨e', he', hcontains⟩ := hq.1
      have hlt := hopen e' he' q hcontains
      exact ⟨hlt, (hbits q hlt).mpr hq⟩

theorem closePages_usable_iff :
    (∀ q ∈ closePages e.base (bitmapBytes map), ∃ e' ∈ map, e'.Contains q) ↔
      ∃ e' ∈ map, e'.Contains ((e.base + bitmapBytes map) / PAGE_SIZE) := by
  obtain ⟨he, htype, hfits⟩ := bitmapEntry_fits hfind
  have hbase := (h.aligned e he htype).1
  constructor
  · intro hall
    refine hall _ ((mem_closePages hbase).mpr ⟨?_, le_rfl⟩)
    exact Nat.div_le_div_right (Nat.le_add_right _ _)
  · intro hlast q hq
    obtain ⟨hlo, hhi⟩ := (mem_closePages hbase).mp hq
    obtain hlt | rfl := hhi.lt_or_eq
    · refine ⟨e, he, htype, ?_, ?_⟩
      all_goals
        unfold PAGE_SIZE at *
        omega
    · exact hlast

theorem div_mem_log (hrun : pmmInitLogged mem map = .ok r) {e' : MemmapEntry} (he' : e' ∈ map)
    {q : ℕ} (hq : e'.Contains q) : q / 8 ∈ r.2 := by
  obtain ⟨-, -, -, hlog⟩ := (pmmInitLogged_post mem hfind).of_ok hrun
  rw [hlog, map_append, mem_append]
  exact .inl (mem_map_of_mem ((mem_flatMap_openPages h.aligned).mpr ⟨e', he', hq⟩))

end

theorem pmmInitLogged_returns (mem : Mem) (h : MemmapOk map) :
    ∃ r, pmmInitLogged mem map = .ok r ∧ r.1.bitmapSize = bitmapBytes map := by
  obtain ⟨s, hs, hsize, -⟩ := (pmmInit_post mem h).returns
  have hfst := pmmInitLogged_fst mem map
  rw [hs] at hfst
  cases hrun : pmmInitLogged mem map with
  | error f =>
    rw [hrun] at hfst
    cases hfst
  | ok r =>
    rw [hrun] at hfst
    exact ⟨r, rfl, Except.ok.inj hfst ▸ hsize⟩

end Accesses

/-- The accesses of `pmm_init` stay inside the bitmap and its counters are right exactly if the
bitmap has a bit for every usable page and the page at the end of the bitmap is usable. -/
theorem pmm_init_accesses_iff (mem : Mem) {map : List MemmapEntry}
    (haligned : ∀ e ∈ map, e.type = .usable → e.base % PAGE_SIZE = 0 ∧ e.length % PAGE_SIZE = 0)
    (hsorted : map.Pairwise fun e e' =>
      e.type = .usable → e'.type = .usable → e.base + e.length ≤ e'.base) :
    Post (pmmInitLogged mem map)
      (fun r => (∀ i ∈ r.2, i < r.1.bitmapSize) ∧ r.1.pmm.CountsMatch) (fun _ => True) ↔
    ∀ e, map.find? (fun e => e.type = .usable ∧ ¬e.length < bitmapBytes map) = some e →
      (∀ e' ∈ map, ∀ q, e'.Contains q → q < 8 * bitmapBytes map) ∧
      ∃ e' ∈ map, e'.Contains ((e.base + bitmapBytes map) / PAGE_SIZE) := by
  cases hfind : map.find? (fun e => e.type = .usable ∧ ¬e.length < bitmapBytes map) with
  | none =>
    have hpanic : pmmInitLogged mem map =
        .error (.panic "Not enough free memory to allocate for bitmap." "PMM" []) := by
      unfold pmmInitLogged
      rw [hfind]
    simp [hpanic]
  | some e =>
    have hok : MemmapOk map := ⟨haligned, hsorted, e, bitmapEntry_fits hfind⟩
    obtain ⟨r, hrun, hsize⟩ := pmmInitLogged_returns mem hok
    rw [hrun, post_ok, hsize]
    constructor
    · rintro ⟨hbound, hcounts⟩ e' he'
      cases he'
      have hopen : ∀ e' ∈ map, ∀ q, e'.Contains q → q < 8 * bitmapBytes map := by
        intro e' he' q hq
        have := hbound _ (div_mem_log hok hfind hrun he' hq)
        omega
      rw [pmmInit_countsMatch_iff hok hfind hrun hopen, closePages_usable_iff hok hfind] at hcounts
      exact ⟨hopen, hcounts⟩
    · intro hcond
      obtain ⟨hopen, hlast⟩ := hcond e rfl
      rw [← closePages_usable_iff hok hfind] at hlast
      refine ⟨fun i hi => ?_, (pmmInit_countsMatch_iff hok hfind hrun hopen).mpr hlast⟩
      obtain ⟨-, -, -, hlog⟩ := (pmmInitLogged_post mem hfind).of_ok hrun
      obtain ⟨q, hq, rfl⟩ := mem_map.mp (hlog ▸ hi)
      obtain ⟨e', he', hcontains⟩ : ∃ e' ∈ map, e'.Contains q :=
        (mem_append.mp hq).elim (mem_flatMap_openPages haligned).mp (hlast q)
      have := hopen e' he' q hcontains
      omega

theorem firstPage_end_lt : 0 + PAGE_SIZE < 2 ^ 64 := by decide

def byteMap : List MemmapEntry :=
  [⟨0, PAGE_SIZE, .reserved, firstPage_end_lt⟩, ⟨PAGE_SIZE, 7 * PAGE_SIZE, .usable, by decide⟩]

theorem byteMap_contains {e : MemmapEntry} (he : e ∈ byteMap) {q : ℕ} (hq : e.Contains q) :
    q < 8 := by
  obtain ⟨htype, -, hend⟩ := hq
  simp only [byteMap, List.mem_cons, not_mem_nil, or_false] at he
  obtain rfl | rfl := he
  · cases htype
  · unfold PAGE_SIZE at hend
    dsimp only at hend
    omega

theorem pmm_init_accesses_byteMap :
    Post (pmmInitLogged (fun _ => 0) byteMap)
      (fun r => (∀ i ∈ r.2, i < r.1.bitmapSize) ∧ r.1.pmm.CountsMatch) (fun _ => True) := by
  refine (pmm_init_accesses_iff (fun _ => 0) (by decide) (by decide)).mpr fun e he => ⟨?_, ?_⟩
  · exact fun e' he' q hq => byteMap_contains he' hq
  · obtain rfl : e = ⟨PAGE_SIZE, 7 * PAGE_SIZE, .usable, by decide⟩ := Option.some.inj he.symm
    exact ⟨_, mem_cons_of_mem _ mem_cons_self, rfl, by decide, by decide⟩

/-- Seventeen pages have a bitmap of two bytes, and page 16 is looked up in the third. -/
theorem pmm_init_lowMap_overruns :
    ¬Post (pmmInitLogged (fun _ => 0) lowMap)
      (fun r => (∀ i ∈ r.2, i < r.1.bitmapSize) ∧ r.1.pmm.CountsMatch) (fun _ => True) := by
  intro hpost
  obtain ⟨r, hrun, hsize⟩ := pmmInitLogged_returns (fun _ => 0) lowMap_ok
  have hlast : 16 / 8 ∈ r.2 := by
    refine div_mem_log lowMap_ok (e := ⟨PAGE_SIZE, 16 * PAGE_SIZE, .usable, by decide⟩) rfl hrun
      (mem_cons_of_mem _ mem_cons_self) ⟨rfl, ?_, ?_⟩
    · decide
    · decide
  have hbound := (hpost.of_ok hrun).1 _ hlast
  rw [hsize] at hbound
  exact absurd hbound (by decide)

end GarnOS
