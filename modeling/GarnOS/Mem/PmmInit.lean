import GarnOS.Mem.PmmBits

/-! `pmm_init`: the bitmap is put into the first usable entry that is large enough, opened entry by
entry, and closed again over itself. -/
namespace GarnOS
open ByteMemory Outcome List

inductive MemmapType where
  | usable | reserved | acpiReclaimable | acpiNvs | badMemory | bootloaderReclaimable
  | kernelAndModules | framebuffer
  deriving DecidableEq, Repr

structure MemmapEntry where
  base : ℕ
  length : ℕ
  type : MemmapType
  end_lt : base + length < 2 ^ 64

def memmapGetHighestUsableAddress (map : List MemmapEntry) : ℕ :=
  map.foldl (fun highest e => if e.type = .usable then e.base + e.length else highest) 0

theorem highestUsable_cases (map : List MemmapEntry) : memmapGetHighestUsableAddress map = 0 ∨
    ∃ e ∈ map, e.type = .usable ∧ memmapGetHighestUsableAddress map = e.base + e.length := by
  unfold memmapGetHighestUsableAddress
  induction map using reverseRecOn with
  | nil => exact .inl rfl
  | append_singleton map e ih =>
    rw [foldl_append, foldl_cons, foldl_nil]
    by_cases htype : e.type = .usable
    · exact .inr ⟨e, by simp, htype, if_pos htype⟩
    · rw [if_neg htype]
      exact ih.imp_right fun ⟨e', he', h⟩ => ⟨e', by simp [he'], h⟩

def bitmapBytes (map : List MemmapEntry) : ℕ :=
  ALIGN_UP (memmapGetHighestUsableAddress map) PAGE_SIZE / PAGE_SIZE / 8

theorem bitmapBytes_lt (map : List MemmapEntry) : bitmapBytes map < 2 ^ 49 := by
  have hlt : memmapGetHighestUsableAddress map < 2 ^ 64 := by
    obtain hzero | ⟨e, -, -, hlast⟩ := highestUsable_cases map
    · omega
    · exact hlast ▸ e.end_lt
  unfold bitmapBytes ALIGN_UP PAGE_SIZE
  split <;> omega

/-- The globals while `pmm_init` runs: the bitmap is still part of the memory. `bitmap` is its
physical address. -/
structure PmmBoot where
  mem : Mem
  bitmap : ℕ
  bitmapSize : ℕ
  usedPages : BitVec 64
  freePages : BitVec 64
  usablePages : BitVec 64
  size_lt : bitmapSize < 2 ^ 49

namespace PmmBoot

def pmm (s : PmmBoot) : Pmm where
  bitmap := (List.range s.bitmapSize).map fun i => s.mem (s.bitmap + i)
  usedPages := s.usedPages
  freePages := s.freePages
  size_lt := by simpa using s.size_lt

/-- `pmm_bitmap_clear`. The byte behind the bitmap passes the check. -/
def bitmapClear (s : PmmBoot) (page : ℕ) : Except Fault PmmBoot :=
  if page / 8 > s.bitmapSize then
    .error (.panic "Bitmap bounds exceeded! Attempt to index physical page 0x%x (dealloc)" "PMM" [page])
  else .ok { s with
    usedPages := s.usedPages - 1
    freePages := s.freePages + 1
    mem := Function.update s.mem (s.bitmap + page / 8)
      (s.mem (s.bitmap + page / 8) &&& ~~~(0b10000000#8 >>> (page % 8))) }

def bitmapSet (s : PmmBoot) (page : ℕ) : Except Fault PmmBoot :=
  if page / 8 > s.bitmapSize then
    .error (.panic "Bitmap bounds exceeded! Attempt to index physical page 0x%x (alloc)" "PMM" [page])
  else .ok { s with
    usedPages := s.usedPages + 1
    freePages := s.freePages - 1
    mem := Function.update s.mem (s.bitmap + page / 8)
      (s.mem (s.bitmap + page / 8) ||| (0b10000000#8 >>> (page % 8))) }

def openEntry (s : PmmBoot) (e : MemmapEntry) : Except Fault PmmBoot :=
  if e.type ≠ .usable then .ok s
  else forRange (fun j s => do
    let s ← s.bitmapClear j
    return { s with usablePages := s.usablePages + 1 })
    (e.base / 4096) ((e.base + e.length) / 4096 - e.base / 4096) s

/-- The loop `for(i = bitmapNoHHDM; i <= bitmapNoHHDM + bitmapSize; i+=PAGE_SIZE)`. The bitmap does
not reach into the last page of the address space, so that `i` does not wrap. -/
def closeBitmap (s : PmmBoot) : Except Fault PmmBoot :=
  forRange (fun k s => do
    let s ← s.bitmapSet ((s.bitmap + k * PAGE_SIZE) / PAGE_SIZE)
    return { s with usablePages := s.usablePages - 1 }) 0 (s.bitmapSize / PAGE_SIZE + 1) s

end PmmBoot

def pmmInit (mem : Mem) (map : List MemmapEntry) : Except Fault PmmBoot :=
  match map.find? fun e => e.type = .usable ∧ ¬e.length < bitmapBytes map with
  | none => .error (.panic "Not enough free memory to allocate for bitmap." "PMM" [])
  | some e => do
    let s : PmmBoot := ⟨memset mem e.base 0xff (bitmapBytes map), e.base, bitmapBytes map,
      BitVec.ofNat 64 (bitmapBytes map * 8), 0, 0, bitmapBytes_lt map⟩
    let s ← map.foldlM PmmBoot.openEntry s
    s.closeBitmap

structure MemmapOk (map : List MemmapEntry) : Prop where
  aligned : ∀ e ∈ map, e.type = .usable → e.base % PAGE_SIZE = 0 ∧ e.length % PAGE_SIZE = 0
  sorted : map.Pairwise fun e e' => e.type = .usable → e'.type = .usable →
    e.base + e.length ≤ e'.base
  fits : ∃ e ∈ map, e.type = .usable ∧ bitmapBytes map ≤ e.length

def MemmapEntry.Contains (e : MemmapEntry) (page : ℕ) : Prop :=
  e.type = .usable ∧ e.base ≤ page * PAGE_SIZE ∧ (page + 1) * PAGE_SIZE ≤ e.base + e.length

namespace PmmBoot
variable {s t : PmmBoot} {page q : ℕ}

@[simp] theorem pages_pmm (s : PmmBoot) : s.pmm.pages = 8 * s.bitmapSize := by
  simp [pmm, Pmm.pages]

theorem byte_pmm (s : PmmBoot) (i : ℕ) :
    s.pmm.byte i = if i < s.bitmapSize then s.mem (s.bitmap + i) else 0 := by
  by_cases hi : i < s.bitmapSize
  all_goals simp [pmm, Pmm.byte, getD_eq_getElem?_getD, hi]

structure Keeps (s t : PmmBoot) : Prop where
  bitmap : t.bitmap = s.bitmap
  bitmapSize : t.bitmapSize = s.bitmapSize

theorem Keeps.trans {u : PmmBoot} (h : Keeps s t) (h' : Keeps t u) : Keeps s u :=
  ⟨h'.bitmap.trans h.bitmap, h'.bitmapSize.trans h.bitmapSize⟩

/-- A store to byte `k` behind the start of the bitmap, as the list of its bytes sees it. -/
theorem pmm_store (s : PmmBoot) (k : ℕ) (f : BitVec 8 → BitVec 8) (u v : BitVec 64)
    (hlt : (s.pmm.bitmap.set k (f (s.pmm.byte k))).length < 2 ^ 49) :
    ({ s with
      usedPages := u
      freePages := v
      mem := Function.update s.mem (s.bitmap + k) (f (s.mem (s.bitmap + k))) } : PmmBoot).pmm =
      ⟨s.pmm.bitmap.set k (f (s.pmm.byte k)), u, v, hlt⟩ := by
  rw [pmm, Pmm.mk.injEq]
  refine ⟨ext_getElem? fun i => ?_, rfl, rfl⟩
  rw [byte_pmm, getElem?_set]
  by_cases hik : k = i
  · subst hik
    by_cases hk : k < s.bitmapSize <;> simp [pmm, hk]
  · by_cases hi : i < s.bitmapSize <;> simp [pmm, hik, Ne.symm hik, hi]

/-- Both embeddings of `pmm_bitmap_clear` do the same to the bitmap and the counters. -/
theorem bitmapClear_eq (h : page / 8 ≤ s.bitmapSize) : ∃ t, s.bitmapClear page = .ok t ∧
    Keeps s t ∧ t.pmm = s.pmm.clear page ∧ ∀ x, x ≠ s.bitmap + page / 8 → t.mem x = s.mem x :=
  ⟨_, if_neg (by omega), ⟨rfl, rfl⟩,
    s.pmm_store (page / 8) (· &&& ~~~(0b10000000#8 >>> (page % 8))) _ _ _,
    fun _ hx => Function.update_of_ne hx ..⟩

theorem bitmapSet_eq (h : page / 8 ≤ s.bitmapSize) : ∃ t, s.bitmapSet page = .ok t ∧
    Keeps s t ∧ t.pmm = s.pmm.set page :=
  ⟨_, if_neg (by omega), ⟨rfl, rfl⟩,
    s.pmm_store (page / 8) (· ||| (0b10000000#8 >>> (page % 8))) _ _ _⟩

theorem bitmapClear_post (h : page / 8 ≤ s.bitmapSize) :
    Post (s.bitmapClear page)
      (fun t => Keeps s t ∧ ∀ q, t.pmm.test q = (!decide (q = page) && s.pmm.test q))
      (fun _ => False) := by
  obtain ⟨t, ht, hkeeps, hpmm, -⟩ := bitmapClear_eq h
  rw [ht]
  exact post_ok.mpr ⟨hkeeps, fun q => by rw [hpmm, Pmm.test_clear]⟩

theorem bitmapSet_post (h : page / 8 ≤ s.bitmapSize) :
    Post (s.bitmapSet page)
      (fun t => Keeps s t ∧
        ∀ q < 8 * s.bitmapSize, t.pmm.test q = (decide (q = page) || s.pmm.test q))
      (fun _ => False) := by
  obtain ⟨t, ht, hkeeps, hpmm⟩ := bitmapSet_eq h
  rw [ht]
  refine post_ok.mpr ⟨hkeeps, fun q hq => ?_⟩
  rw [hpmm]
  by_cases hpage : page < s.pmm.pages
  · exact Pmm.test_set hpage
  · -- the byte behind the bitmap
    rw [pages_pmm] at hpage
    have hne : q ≠ page := by omega
    unfold Pmm.test
    rw [Pmm.byte_set, if_neg (by omega)]
    simp [hne]

/-- The bits after `openEntry` was called for some entries. -/
structure Opened (s t : PmmBoot) (free : ℕ → Prop) : Prop where
  keeps : Keeps s t
  bits : ∀ q < 8 * s.bitmapSize, t.pmm.test q = false ↔ free q

variable {free : ℕ → Prop}

theorem openEntry_post {e : MemmapEntry} (hs : Opened s t free)
    (haligned : e.type = .usable → e.base % PAGE_SIZE = 0 ∧ e.length % PAGE_SIZE = 0)
    (hend : e.type = .usable → (e.base + e.length) / PAGE_SIZE / 8 ≤ s.bitmapSize) :
    Post (t.openEntry e) (fun u => Opened s u fun q => free q ∨ e.Contains q) (fun _ => False) := by
  unfold openEntry
  by_cases htype : e.type = .usable
  · obtain ⟨hbase, hlength⟩ := haligned htype
    have hend := hend htype
    unfold PAGE_SIZE at hbase hlength hend
    rw [if_neg (not_not.mpr htype)]
    refine (forRange_post (fun j u => Opened s u fun q => free q ∨ e.base / 4096 ≤ q ∧ q < j)
      ?_ ?_).mono_ok fun u hu => ?_
    · refine ⟨hs.keeps, fun q hq => ?_⟩
      rw [hs.bits q hq]
      exact (or_iff_left (by omega)).symm
    · intro j u hlo hj hu
      have hbound : j / 8 ≤ u.bitmapSize := by
        rw [hu.keeps.bitmapSize]
        omega
      refine (bitmapClear_post hbound).bind fun w hw => post_ok.mpr ⟨?_, fun q hq => ?_⟩
      · have hkeeps := hu.keeps.trans hw.1
        exact ⟨hkeeps.bitmap, hkeeps.bitmapSize⟩
      · have hbit : w.pmm.test q = false ↔ q = j ∨ u.pmm.test q = false := by
          rw [hw.2 q]
          by_cases hqj : q = j <;> simp [hqj]
        change w.pmm.test q = false ↔ _
        rw [hbit, hu.bits q hq, or_left_comm]
        exact or_congr_right (by omega)
    · refine ⟨hu.keeps, fun q hq => ?_⟩
      rw [hu.bits q hq]
      rw [MemmapEntry.Contains, and_iff_right htype]
      unfold PAGE_SIZE
      exact or_congr_right (by omega)
  · rw [if_pos htype]
    refine post_ok.mpr ⟨hs.keeps, fun q hq => ?_⟩
    rw [hs.bits q hq]
    exact (or_iff_left fun hc => htype hc.1).symm

theorem openEntries_post {map : List MemmapEntry} (hs : Opened s t free)
    (haligned : ∀ e ∈ map, e.type = .usable → e.base % PAGE_SIZE = 0 ∧ e.length % PAGE_SIZE = 0)
    (hend : ∀ e ∈ map, e.type = .usable → (e.base + e.length) / PAGE_SIZE / 8 ≤ s.bitmapSize) :
    Post (map.foldlM openEntry t) (fun u => Opened s u fun q => free q ∨ ∃ e ∈ map, e.Contains q)
      (fun _ => False) := by
  induction map generalizing t free with
  | nil =>
    refine post_ok.mpr ⟨hs.keeps, fun q hq => ?_⟩
    simpa using hs.bits q hq
  | cons e map ih =>
    rw [foldlM_cons]
    apply (openEntry_post hs (haligned e mem_cons_self) (hend e mem_cons_self)).bind
    intro u hu
    have hrest := ih hu (fun e he => haligned e (mem_cons_of_mem _ he))
      fun e he => hend e (mem_cons_of_mem _ he)
    refine hrest.mono_ok fun w hw => ⟨hw.keeps, fun q hq => ?_⟩
    rw [hw.bits q hq, or_assoc]
    simp

theorem closeBitmap_post (hbase : s.bitmap % PAGE_SIZE = 0)
    (hend : (s.bitmap + s.bitmapSize) / PAGE_SIZE / 8 ≤ s.bitmapSize) :
    Post s.closeBitmap (fun u => Opened s u fun q => s.pmm.test q = false ∧
      ¬(s.bitmap / PAGE_SIZE ≤ q ∧ q ≤ (s.bitmap + s.bitmapSize) / PAGE_SIZE))
        (fun _ => False) := by
  unfold PAGE_SIZE at hbase hend
  unfold closeBitmap PAGE_SIZE
  refine (forRange_post (fun k u => Opened s u fun q => s.pmm.test q = false ∧
    ¬(s.bitmap / 4096 ≤ q ∧ q < s.bitmap / 4096 + k)) ?_ ?_).mono_ok fun u hu => ?_
  · exact ⟨⟨rfl, rfl⟩, fun q hq => (and_iff_left (by omega)).symm⟩
  · intro k u _ hk hu
    have hpage : (u.bitmap + k * 4096) / 4096 = s.bitmap / 4096 + k := by
      rw [hu.keeps.bitmap]
      omega
    have hbound : (u.bitmap + k * 4096) / 4096 / 8 ≤ u.bitmapSize := by
      rw [hpage, hu.keeps.bitmapSize]
      omega
    refine (bitmapSet_post hbound).bind fun w hw => post_ok.mpr ⟨?_, fun q hq => ?_⟩
    · have hkeeps := hu.keeps.trans hw.1
      exact ⟨hkeeps.bitmap, hkeeps.bitmapSize⟩
    · have hbit : w.pmm.test q = false ↔ q ≠ s.bitmap / 4096 + k ∧ u.pmm.test q = false := by
        rw [hw.2 q (by rwa [hu.keeps.bitmapSize]), hpage]
        simp
      change w.pmm.test q = false ↔ _
      rw [hbit, hu.bits q hq, and_left_comm]
      exact and_congr_right fun _ => by omega
  · refine ⟨hu.keeps, fun q hq => ?_⟩
    rw [hu.bits q hq]
    exact and_congr_right fun _ => by omega

end PmmBoot

section Init
variable {map : List MemmapEntry} {mem : Mem}

theorem le_highestUsable (hsorted : map.Pairwise fun e e' =>
      e.type = .usable → e'.type = .usable → e.base + e.length ≤ e'.base) :
    ∀ e ∈ map, e.type = .usable → e.base + e.length ≤ memmapGetHighestUsableAddress map := by
  -- the fold never falls below a bound of the bases that are left
  suffices h : ∀ n, (∀ e ∈ map, e.type = .usable → n ≤ e.base) →
      n ≤ map.foldl (fun highest e => if e.type = .usable then e.base + e.length else highest) n ∧
      ∀ e ∈ map, e.type = .usable → e.base + e.length ≤
        map.foldl (fun highest e => if e.type = .usable then e.base + e.length else highest) n from
    (h 0 fun _ _ _ => Nat.zero_le _).2
  induction map with
  | nil => exact fun n _ => ⟨le_rfl, by simp⟩
  | cons e map ih =>
    intro n hn
    obtain ⟨hhead, htail⟩ := pairwise_cons.mp hsorted
    rw [foldl_cons]
    by_cases htype : e.type = .usable
    · rw [if_pos htype]
      obtain ⟨hle, hrest⟩ := ih htail (e.base + e.length) fun e' he' htype' =>
        hhead e' he' htype htype'
      have hbase := hn e mem_cons_self htype
      exact ⟨by omega, forall_mem_cons.mpr ⟨fun _ => hle, hrest⟩⟩
    · rw [if_neg htype]
      obtain ⟨hle, hrest⟩ := ih htail n fun e' he' => hn e' (mem_cons_of_mem _ he')
      exact ⟨hle, forall_mem_cons.mpr ⟨fun htype' => absurd htype' htype, hrest⟩⟩

theorem MemmapOk.end_le (h : MemmapOk map) {e : MemmapEntry} (he : e ∈ map)
    (htype : e.type = .usable) : (e.base + e.length) / PAGE_SIZE / 8 ≤ bitmapBytes map := by
  have hle := le_highestUsable h.sorted e he htype
  obtain hzero | ⟨e', he', htype', hlast⟩ := highestUsable_cases map
  · have hend : e.base + e.length = 0 := by omega
    simp [hend]
  · have haligned : memmapGetHighestUsableAddress map % PAGE_SIZE = 0 := by
      rw [hlast, Nat.add_mod, (h.aligned e' he' htype').1, (h.aligned e' he' htype').2,
        Nat.zero_add, Nat.zero_mod]
    unfold bitmapBytes ALIGN_UP
    rw [if_pos haligned]
    exact Nat.div_le_div_right (Nat.div_le_div_right hle)

/-- The bits that `pmm_init` leaves clear: the usable pages outside the bitmap. -/
theorem pmmInit_post (mem : Mem) (h : MemmapOk map) :
    Post (pmmInit mem map) (fun s => s.bitmapSize = bitmapBytes map ∧
      ∀ q < 8 * s.bitmapSize, s.pmm.test q = false ↔ (∃ e ∈ map, e.Contains q) ∧
        ¬(s.bitmap / PAGE_SIZE ≤ q ∧ q ≤ (s.bitmap + s.bitmapSize) / PAGE_SIZE))
          (fun _ => False) := by
  unfold pmmInit
  cases hfind : map.find? fun e => e.type = .usable ∧ ¬e.length < bitmapBytes map with
  | none =>
    obtain ⟨e, he, htype, hlength⟩ := h.fits
    have hnot := find?_eq_none.mp hfind e he
    simp [htype, hlength] at hnot
  | some e =>
    have he := mem_of_find?_eq_some hfind
    obtain ⟨htype, hlength⟩ : e.type = .usable ∧ ¬e.length < bitmapBytes map := by
      simpa using find?_some hfind
    set s : PmmBoot := ⟨memset mem e.base 0xff (bitmapBytes map), e.base, bitmapBytes map,
      BitVec.ofNat 64 (bitmapBytes map * 8), 0, 0, bitmapBytes_lt map⟩
    have hset : s.Opened s fun _ => False := by
      refine ⟨⟨rfl, rfl⟩, fun q hq => ?_⟩
      have hbyte : s.pmm.byte (q / 8) = 0xff := by
        have hq8 : q / 8 < s.bitmapSize := by omega
        rw [PmmBoot.byte_pmm, if_pos hq8]
        change memset mem e.base 0xff (bitmapBytes map) (e.base + q / 8) = 0xff
        rw [memset_eq_fill]
        exact fill_in mem _ (by omega) (Nat.add_lt_add_left hq8 _)
      simp [Pmm.test_of_full hbyte]
    apply (PmmBoot.openEntries_post hset h.aligned fun e he htype => h.end_le he htype).bind
    intro t ht
    have hbase : t.bitmap = e.base := ht.keeps.bitmap
    have hsize : t.bitmapSize = bitmapBytes map := ht.keeps.bitmapSize
    have hend := h.end_le he htype
    have haligned := (h.aligned e he htype).1
    have hbound : (t.bitmap + t.bitmapSize) / PAGE_SIZE / 8 ≤ t.bitmapSize := by
      rw [hbase, hsize]
      unfold PAGE_SIZE at hend ⊢
      omega
    refine (PmmBoot.closeBitmap_post (by rw [hbase]; exact haligned) hbound).mono_ok
      fun u hu => ⟨hu.keeps.bitmapSize.trans hsize, fun q hq => ?_⟩
    rw [hu.keeps.bitmapSize] at hq
    rw [hu.bits q hq, ht.bits q (by rwa [← ht.keeps.bitmapSize]), hu.keeps.bitmap,
      hu.keeps.bitmapSize, false_or]

/-- After `pmm_init` a clear bit is a page inside a usable entry that shares no byte with the
bitmap. -/
theorem pmm_init_sound (mem : Mem) (h : MemmapOk map) : ∃ s, pmmInit mem map = .ok s ∧
    ∀ p < 8 * s.bitmapSize, s.pmm.test p = false →
      (∃ e ∈ map, e.type = .usable ∧ e.base ≤ p * PAGE_SIZE ∧
        (p + 1) * PAGE_SIZE ≤ e.base + e.length) ∧
      ((p + 1) * PAGE_SIZE ≤ s.bitmap ∨ s.bitmap + s.bitmapSize ≤ p * PAGE_SIZE) := by
  obtain ⟨s, hs, -, hbits⟩ := (pmmInit_post mem h).returns
  refine ⟨s, hs, fun p hp hclear => ?_⟩
  obtain ⟨hcontains, hout⟩ := (hbits p hp).mp hclear
  refine ⟨hcontains, ?_⟩
  unfold PAGE_SIZE at hout ⊢
  omega

def lowMap : List MemmapEntry :=
  [⟨0, PAGE_SIZE, .reserved, by decide⟩, ⟨PAGE_SIZE, 16 * PAGE_SIZE, .usable, by decide⟩]

theorem lowMap_ok : MemmapOk lowMap where
  aligned := by decide
  sorted := by decide
  fits := ⟨⟨PAGE_SIZE, 16 * PAGE_SIZE, .usable, by decide⟩, by simp [lowMap], rfl, by decide⟩

theorem pmm_init_sound_lowMap : MemmapOk lowMap ∧ ∃ s, pmmInit (fun _ => 0) lowMap = .ok s ∧
    ∀ p < 8 * s.bitmapSize, s.pmm.test p = false →
      (∃ e ∈ lowMap, e.type = .usable ∧ e.base ≤ p * PAGE_SIZE ∧
        (p + 1) * PAGE_SIZE ≤ e.base + e.length) ∧
      ((p + 1) * PAGE_SIZE ≤ s.bitmap ∨ s.bitmap + s.bitmapSize ≤ p * PAGE_SIZE) :=
  ⟨lowMap_ok, pmm_init_sound (fun _ => 0) lowMap_ok⟩

end Init

end GarnOS
