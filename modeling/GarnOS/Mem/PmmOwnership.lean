import GarnOS.Library.Runs
import GarnOS.Mem.PmmMemory

/-! Page ownership: over every run of allocations and frees the set bits are the initially set ones
and the disjoint ranges of the live blocks, as long as no block of more than 2 GiB is freed. For such
a block the offset of the `memset` is negative, and it can hit the bitmap. -/
namespace GarnOS
open ByteMemory Outcome FirstFit Finset PmmBoot Relation

/-- A block handed out by the allocator and not yet freed. -/
structure PageRange where
  base : ℕ
  npages : ℕ
  deriving DecidableEq, Repr

def PageRange.pages (b : PageRange) : Finset ℕ := Ico (b.base / 4096) (b.base / 4096 + b.npages)

structure Ledger where
  machine : PmmBoot
  live : List PageRange

def livePages (live : List PageRange) : Finset ℕ := live.foldr (fun b acc => b.pages ∪ acc) ∅

/-- One call by some client; a call that panics has no successor state. No block of more than
`limit` pages is freed. -/
inductive PmmStep (hhdm limit : ℕ) : Ledger → Ledger → Prop
  | allocate {σ : Ledger} {n base : ℕ} {s' : PmmBoot} (hn : 1 ≤ n) (hint : n < 2 ^ 31)
      (h : σ.machine.allocate n = .ok (base, s')) :
      PmmStep hhdm limit σ ⟨s', ⟨base, n⟩ :: σ.live⟩
  | allocate32 {σ : Ledger} {n base : ℕ} {s' : PmmBoot} (hn : 1 ≤ n) (hint : n < 2 ^ 31)
      (h : σ.machine.allocate32 n = .ok (base, s')) :
      PmmStep hhdm limit σ ⟨s', ⟨base, n⟩ :: σ.live⟩
  | free {σ : Ledger} {b : PageRange} {s' : PmmBoot} (hb : b ∈ σ.live) (hlimit : b.npages ≤ limit)
      (h : σ.machine.free hhdm b.base b.npages = .ok s') :
      PmmStep hhdm limit σ ⟨s', σ.live.erase b⟩

/-- The live ranges are pairwise disjoint, the set bits are the initial ones and these
ranges, with no overlap, and both counters are right. -/
structure Owned (initial : PmmBoot) (σ : Ledger) : Prop where
  disjoint : σ.live.Pairwise fun a b => Disjoint a.pages b.pages
  bits : σ.machine.pmm.setBits = initial.pmm.setBits ∪ livePages σ.live
  fresh : Disjoint initial.pmm.setBits (livePages σ.live)
  counts : σ.machine.pmm.CountsMatch

/-- What `pmm_init` establishes for the memory map of the bootloader: page 0 and the pages of the
bitmap are taken, and the direct map reaches the other ones. -/
structure Placed (hhdm : ℕ) (s : PmmBoot) : Prop where
  free : ∀ q < 8 * s.bitmapSize, s.pmm.test q = false → q ≠ 0 ∧
    ((q + 1) * PAGE_SIZE ≤ s.bitmap ∨ s.bitmap + s.bitmapSize ≤ q * PAGE_SIZE)
  mapped : hhdm + 8 * s.bitmapSize * PAGE_SIZE ≤ 2 ^ 64

/-- The shape of a live block that lets `pmm_free` walk exactly its pages. -/
structure LedgerInv (initial : PmmBoot) (σ : Ledger) : Prop extends Owned initial σ where
  keeps : Keeps initial σ.machine
  shape : ∀ b ∈ σ.live, b.base = b.base / 4096 * 4096 ∧ 1 ≤ b.npages ∧
    b.base / 4096 + b.npages ≤ 8 * initial.bitmapSize

theorem pmmInit_placed {map : List MemmapEntry} {mem : Mem} {hhdm : ℕ} {s : PmmBoot}
    (hmap : MemmapOk map) (hzero : ∀ e ∈ map, ¬e.Contains 0)
    (hmapped : hhdm + 8 * bitmapBytes map * PAGE_SIZE ≤ 2 ^ 64) (h : pmmInit mem map = .ok s) :
    Placed hhdm s := by
  obtain ⟨hsize, hbits⟩ := (pmmInit_post mem hmap).of_ok h
  refine ⟨fun q hq hclear => ?_, by rwa [hsize]⟩
  obtain ⟨⟨e, he, hcontains⟩, hout⟩ := (hbits q hq).mp hclear
  refine ⟨?_, ?_⟩
  · rintro rfl
    exact hzero e he hcontains
  · unfold PAGE_SIZE at hout ⊢
    omega

theorem mem_livePages {live : List PageRange} {q : ℕ} :
    q ∈ livePages live ↔ ∃ b ∈ live, q ∈ b.pages := by
  induction live with
  | nil => simp [livePages]
  | cons b live ih =>
    change q ∈ b.pages ∪ livePages live ↔ _
    rw [mem_union, ih]
    simp

theorem LedgerInv.initial (s : PmmBoot) (h : s.pmm.CountsMatch) : LedgerInv s ⟨s, []⟩ where
  disjoint := List.Pairwise.nil
  bits := by simp [livePages]
  fresh := by simp [livePages]
  counts := h
  keeps := ⟨rfl, rfl⟩
  shape := by simp

variable {initial s' : PmmBoot} {σ τ : Ledger} {hhdm : ℕ}

section
variable (h : LedgerInv initial σ)
include h

theorem LedgerInv.pages : σ.machine.pmm.pages = 8 * initial.bitmapSize := by
  rw [pages_pmm, h.keeps.bitmapSize]

theorem LedgerInv.add {b n : ℕ} (hn : 1 ≤ n) (hfit : b + n ≤ σ.machine.pmm.pages)
    (hrun : Run σ.machine.pmm.Free b n) (hm : Marked σ.machine.pmm b n s'.pmm)
    (hkeeps : Keeps σ.machine s') : LedgerInv initial ⟨s', ⟨b * 4096, n⟩ :: σ.live⟩ := by
  have hpages : PageRange.pages ⟨b * 4096, n⟩ = Ico b (b + n) := by
    simp [PageRange.pages]
  have hfree := Pmm.disjoint_of_run hrun
  have hold := h.bits ▸ hfree
  rw [disjoint_union_left] at hold
  constructor
  · constructor
    · refine List.Pairwise.cons (fun c hc => ?_) h.disjoint
      rw [hpages, disjoint_left]
      intro q hq hqc
      exact disjoint_left.mp hold.2 (mem_livePages.mpr ⟨c, hc, hqc⟩) hq
    · change s'.pmm.setBits = _ ∪ (PageRange.pages ⟨b * 4096, n⟩ ∪ livePages σ.live)
      rw [hm.setBits, h.bits, hpages, union_assoc, union_comm (livePages σ.live)]
    · change Disjoint _ (PageRange.pages ⟨b * 4096, n⟩ ∪ livePages σ.live)
      rw [hpages, disjoint_union_right]
      exact ⟨hold.1, h.fresh⟩
    · exact h.counts.marked hm hfit hfree
  · exact h.keeps.trans hkeeps
  · intro c hc
    rw [h.pages] at hfit
    rcases List.mem_cons.mp hc with rfl | hc
    · simp only [Nat.mul_div_cancel _ (show 0 < 4096 by decide)]
      exact ⟨trivial, hn, hfit⟩
    · exact h.shape c hc

/-- Freeing a live block keeps the invariant; disjointness protects the other blocks. -/
theorem LedgerInv.remove {b : PageRange} (hb : b ∈ σ.live)
    (hm : Unmarked σ.machine.pmm (b.base / 4096) b.npages s'.pmm) (hkeeps : Keeps σ.machine s') :
    LedgerInv initial ⟨s', σ.live.erase b⟩ := by
  have hperm := List.perm_cons_erase hb
  have hpair : (b :: σ.live.erase b).Pairwise fun a b => Disjoint a.pages b.pages :=
    (hperm.pairwise_iff fun hab => hab.symm).mp h.disjoint
  rw [List.pairwise_cons] at hpair
  have hlive : livePages σ.live = b.pages ∪ livePages (σ.live.erase b) := by
    ext q
    simp [mem_livePages, hperm.mem_iff]
  have hfresh := hlive ▸ h.fresh
  rw [disjoint_union_right] at hfresh
  have hrest : Disjoint b.pages (livePages (σ.live.erase b)) := by
    rw [disjoint_left]
    intro q hq hq'
    obtain ⟨c, hc, hqc⟩ := mem_livePages.mp hq'
    exact disjoint_left.mp (hpair.1 c hc) hq hqc
  constructor
  · constructor
    · exact hpair.2
    · rw [hm.setBits, h.bits, hlive]
      ext q
      simp only [mem_sdiff, mem_union]
      constructor
      · tauto
      · rintro (hq | hq)
        · exact ⟨Or.inl hq, disjoint_left.mp hfresh.1 hq⟩
        · exact ⟨Or.inr (Or.inr hq), disjoint_right.mp hrest hq⟩
    · exact hfresh.2
    · apply h.counts.unmarked hm
      rw [h.bits, hlive]
      exact (subset_union_left.trans subset_union_right : b.pages ⊆ _)
  · exact h.keeps.trans hkeeps
  · exact fun c hc => h.shape c (List.mem_of_mem_erase hc)

/-- The pages of a live block were free at the start, so that none of them is the bitmap's. -/
theorem LedgerInv.freeable (hplaced : Placed hhdm initial) {b : PageRange} (hb : b ∈ σ.live)
    (hlimit : b.npages ≤ 2 ^ 19) : Freeable hhdm σ.machine (b.base / 4096) b.npages := by
  obtain ⟨-, hn, hfit⟩ := h.shape b hb
  have hclear : ∀ q ∈ b.pages, initial.pmm.test q = false := by
    intro q hq
    rw [← Bool.not_eq_true, ← Pmm.mem_setBits]
    exact disjoint_right.mp h.fresh (mem_livePages.mpr ⟨b, hb, hq⟩)
  have hhigh : hhdm + (b.base / 4096 + b.npages) * 4096 ≤ 2 ^ 64 :=
    (Nat.add_le_add_left (Nat.mul_le_mul_right _ hfit) _).trans hplaced.mapped
  refine ⟨hlimit, by rwa [h.keeps.bitmapSize], ⟨?_, hhigh⟩, fun x hlo hhi => ?_⟩
  · by_contra hlow
    exact (hplaced.free 0 (by omega) (hclear 0 (mem_Ico.mpr (by omega)))).1 rfl
  · have hpage := (hplaced.free (b.base / 4096 + b.npages - 1) (by omega)
      (hclear _ (mem_Ico.mpr (by omega)))).2
    rw [InBitmap, h.keeps.bitmap, h.keeps.bitmapSize]
    unfold PAGE_SIZE at hpage
    omega

theorem LedgerInv.step (hplaced : Placed hhdm initial) (hstep : PmmStep hhdm (2 ^ 19) σ τ) :
    LedgerInv initial τ := by
  cases hstep with
  | allocate hn _ hcall =>
    obtain ⟨b, rfl, hfirst, hm, hkeeps⟩ := (allocate_post σ.machine hn).of_ok hcall
    exact h.add hn hfirst.fits.1 hfirst.fits.2 hm hkeeps
  | allocate32 hn _ hcall =>
    obtain ⟨b, rfl, hfirst, hm, hkeeps⟩ := (allocate32_post σ.machine hn).of_ok hcall
    exact h.add hn (hfirst.le.trans (min_le_left _ _)) hfirst.run hm hkeeps
  | free hb hlimit hcall =>
    obtain ⟨hbase, hn, -⟩ := h.shape _ hb
    rw [hbase] at hcall
    obtain ⟨hm, hkeeps⟩ := (free_post hn (h.freeable hplaced hb hlimit)).of_ok hcall
    exact h.remove hb hm hkeeps

theorem LedgerInv.run (hplaced : Placed hhdm initial)
    (hrun : ReflTransGen (PmmStep hhdm (2 ^ 19)) σ τ) : LedgerInv initial τ :=
  Runs.invariant (fun _ _ ha hstep => ha.step hplaced hstep) h hrun

end

/-- No call of a run stops it but a panic for lack of a fitting run of pages. -/
structure Serves (hhdm : ℕ) (σ : Ledger) : Prop where
  allocate : ∀ n : ℕ, 1 ≤ n →
    (∃ b, b + n ≤ σ.machine.pmm.pages ∧ Run σ.machine.pmm.Free b n) →
      ∃ base s', σ.machine.allocate n = .ok (base, s')
  allocate32 : ∀ n : ℕ, 1 ≤ n →
    (∃ b, b + n ≤ limit32 σ.machine.pmm ∧ Run σ.machine.pmm.Free b n) →
      ∃ base s', σ.machine.allocate32 n = .ok (base, s')
  free : ∀ b ∈ σ.live, b.npages ≤ 2 ^ 19 → ∃ s', σ.machine.free hhdm b.base b.npages = .ok s'

theorem LedgerInv.serves (h : LedgerInv initial σ) (hplaced : Placed hhdm initial) :
    Serves hhdm σ where
  allocate n hn hfit := by
    obtain ⟨b, hle, hrun⟩ := hfit
    obtain ⟨r, hcall, -⟩ := (allocate_post σ.machine hn).returns_of_not fun _ he =>
      he.2 b (Nat.zero_le b) hle hrun
    exact ⟨r.1, r.2, hcall⟩
  allocate32 n hn hfit := by
    obtain ⟨b, hle, hrun⟩ := hfit
    obtain ⟨r, hcall, -⟩ := (allocate32_post σ.machine hn).returns_of_not fun _ he =>
      he.2 b (Nat.zero_le b) hle hrun
    exact ⟨r.1, r.2, hcall⟩
  free b hb hlimit := by
    obtain ⟨hbase, hn, -⟩ := h.shape b hb
    obtain ⟨s', hcall, -⟩ := (free_post hn (h.freeable hplaced hb hlimit)).returns
    rw [← hbase] at hcall
    exact ⟨s', hcall⟩

/-- Ownership over every finite run from a state with right counters that frees no block of more
than 2 GiB. -/
theorem pmm_ownership (s : PmmBoot) (hplaced : Placed hhdm s) (hcounts : s.pmm.CountsMatch)
    (σ : Ledger) (hrun : ReflTransGen (PmmStep hhdm (2 ^ 19)) ⟨s, []⟩ σ) :
    Owned s σ ∧ Serves hhdm σ := by
  have hinv := (LedgerInv.initial s hcounts).run hplaced hrun
  exact ⟨hinv.toOwned, hinv.serves hplaced⟩

/-- Eight pages with the bitmap in page 1. -/
def eightPages : PmmBoot :=
  ⟨Function.update (fun _ => 0) 4096 0xc0, 4096, 1, 2, 6, 6, by decide⟩

theorem pmm_ownership_eightPages : Placed 0xffff800000000000 eightPages ∧
    eightPages.pmm.CountsMatch ∧ ∃ base s s', eightPages.allocate (3 : ℕ) = .ok (base, s) ∧
      Owned eightPages ⟨s, [⟨base, 3⟩]⟩ ∧ s.free 0xffff800000000000 base (3 : ℕ) = .ok s' ∧
      Owned eightPages ⟨s', []⟩ := by
  have hplaced : Placed 0xffff800000000000 eightPages := ⟨by decide, by decide⟩
  have hcounts : eightPages.pmm.CountsMatch := ⟨by decide, by decide⟩
  have hfit : ∃ b, b + 3 ≤ eightPages.pmm.pages ∧ Run eightPages.pmm.Free b 3 := by
    refine ⟨2, by decide, fun q hlo hhi => ?_⟩
    unfold Pmm.Free
    interval_cases q <;> decide
  obtain ⟨base, s, hcall⟩ :=
    (pmm_ownership eightPages hplaced hcounts ⟨eightPages, []⟩ .refl).2.allocate 3 (by decide) hfit
  have hrun : ReflTransGen (PmmStep 0xffff800000000000 (2 ^ 19)) ⟨eightPages, []⟩ _ :=
    .single (.allocate (by decide) (by decide) hcall)
  obtain ⟨howned, hserves⟩ := pmm_ownership eightPages hplaced hcounts _ hrun
  have hsmall : 3 ≤ 2 ^ 19 := by decide
  obtain ⟨s', hfree⟩ := hserves.free ⟨base, 3⟩ (by simp) hsmall
  have hrun' := hrun.tail (.free (by simp) hsmall hfree)
  rw [List.erase_cons_head] at hrun'
  exact ⟨hplaced, hcounts, base, s, s', hcall, howned, hfree,
    (pmm_ownership eightPages hplaced hcounts _ hrun').1⟩

/-- Memory from `0x7ffdf000` to 8 GiB as `pmm_init` leaves it: the bitmap takes the first 64 pages,
and the one behind it counts as taken too. -/
def highMemory : PmmBoot where
  mem x := if 0x7ffdf000 ≤ x ∧ x < 0x7ffef004 then 0xff else 0
  bitmap := 0x7ffdf000
  bitmapSize := 0x40000
  usedPages := 0x80020
  freePages := 0x17ffe0
  usablePages := 0x17ffe0
  size_lt := by decide

theorem highMemory_test (q : ℕ) : highMemory.pmm.test q = decide (q < 0x80020) := by
  have hbyte : highMemory.pmm.byte (q / 8) = if q < 0x80020 then 0xff else 0 := by
    have hmem : highMemory.mem (highMemory.bitmap + q / 8) = if q / 8 < 0x10004 then 0xff else 0 := by
      unfold highMemory
      dsimp only
      exact if_congr (by omega) rfl rfl
    rw [byte_pmm, hmem]
    change (if q / 8 < 0x40000 then _ else _) = _
    split_ifs <;> first | rfl | omega
  split_ifs at hbyte with hq
  · rw [Pmm.test_of_full hbyte, decide_eq_true hq]
  · rw [Pmm.test_eq_getLsbD, hbyte, decide_eq_false hq]
    exact BitVec.getLsbD_zero

theorem highMemory_free {q : ℕ} : highMemory.pmm.Free q ↔ 0x80020 ≤ q := by
  rw [Pmm.Free, highMemory_test, decide_eq_false_iff_not, not_lt]

theorem highMemory_counts : highMemory.pmm.CountsMatch := by
  have hset : highMemory.pmm.setBits = range 0x80020 := by
    ext q
    rw [Pmm.mem_setBits, highMemory_test, decide_eq_true_iff, mem_range]
  have hsum := highMemory.pmm.card_setBits_add_card_clearBits
  rw [hset, card_range, pages_pmm] at hsum
  constructor
  · rw [hset, card_range]
    rfl
  · change 0x17ffe0 = _
    change _ = 8 * 0x40000 at hsum
    omega

theorem highMemory_placed : Placed 0xffff800000000000 highMemory := by
  refine ⟨fun q _ hq => ?_, by decide⟩
  have hq := highMemory_free.mp hq
  unfold PAGE_SIZE highMemory
  dsimp only
  omega

theorem highMemory_allocate : ∃ s, highMemory.allocate (0x80001 : ℕ) = .ok (0x100000000, s) ∧
    Keeps highMemory s := by
  have hfirst : First highMemory.pmm.Free 1048576 highMemory.pmm.pages 0x80001 1048576 := by
    refine ⟨le_rfl, ?_, fun q hq _ => highMemory_free.mpr (by omega), fun b hlo hhi => by omega⟩
    rw [pages_pmm]
    decide
  obtain ⟨⟨base, s⟩, hcall, b, hb, hhigh, -, hkeeps⟩ :=
    (highMemory.allocate_post (n := 0x80001) (by decide)).returns_of_not fun _ he =>
      he.2 _ (Nat.zero_le _) hfirst.le hfirst.run
  obtain rfl := hhigh.eq_of_first (by simp [pmm, highMemory]) hfirst
  obtain rfl : base = 1048576 * 4096 := hb
  exact ⟨s, hcall, hkeeps⟩

/-- The `memset` of this call fills the page of the bitmap that starts at bit `0x108000`. -/
theorem highMemory_freed {s : PmmBoot} (h : Keeps highMemory s) :
    ∃ t, s.free 0xffff800000000000 0x100000000 (0x80001 : ℕ) = .ok t ∧
      t.pmm.test 0x108000 = true := by
  have hlast : lastPage 0x100000000 (0x80001 : ℕ) = 0x80000000 := by decide
  have hcount : pageCount 0x100000000 (0x80001 : ℕ) = 0x80001 := by decide
  have hpost : Post (s.free 0xffff800000000000 0x100000000 (0x80001 : ℕ))
      (fun t => Keeps highMemory t ∧ t.mem 0x80000000 = 0xff) fun _ => False := by
    unfold PmmBoot.free
    rw [hlast, hcount]
    -- from bit `0x108008` on a pass clears no bit of the first byte of that page
    refine (forRange_post (fun i t => Keeps highMemory t ∧
      (0x108008 < i → t.mem 0x80000000 = 0xff)) ⟨h, fun hlt => absurd hlt (by decide)⟩
      fun i t hlo hi ht => ?_).mono_ok fun t ht => ⟨ht.1, ht.2 (by decide)⟩
    have hbitmap : t.bitmap = 0x7ffdf000 := ht.1.bitmap
    have hsize : t.bitmapSize = 0x40000 := ht.1.bitmapSize
    rw [memsetDirect, if_neg (by decide), ok_bind, memset_eq_fill]
    obtain ⟨u, hu, hkeeps, -, hmem⟩ :=
      @bitmapClear_eq { t with mem := fill t.mem 0x80000000 PAGE_SIZE 0xff } i (by dsimp only; omega)
    rw [hu]
    refine post_ok.mpr ⟨⟨hkeeps.bitmap.trans hbitmap, hkeeps.bitmapSize.trans hsize⟩, fun hlt => ?_⟩
    rw [hmem _ (by dsimp only; omega)]
    exact fill_in t.mem _ le_rfl (show 0x80000000 < 0x80000000 + PAGE_SIZE by decide)
  obtain ⟨t, ht, hkeeps, hmem⟩ := hpost.returns
  refine ⟨t, ht, Pmm.test_of_full ?_⟩
  rw [byte_pmm, hkeeps.bitmap, hkeeps.bitmapSize, if_pos (by decide)]
  exact hmem

/-- Freeing a block of 2 GiB and one page marks free pages as taken. -/
theorem pmm_free_fills_bitmap : Placed 0xffff800000000000 highMemory ∧
    highMemory.pmm.CountsMatch ∧ ∃ s t, highMemory.allocate (0x80001 : ℕ) = .ok (0x100000000, s) ∧
      s.free 0xffff800000000000 0x100000000 (0x80001 : ℕ) = .ok t ∧
      ReflTransGen (PmmStep 0xffff800000000000 (2 ^ 31)) ⟨highMemory, []⟩ ⟨t, []⟩ ∧
      ¬Owned highMemory ⟨t, []⟩ := by
  obtain ⟨s, hcall, hkeeps⟩ := highMemory_allocate
  obtain ⟨t, hfree, hbit⟩ := highMemory_freed hkeeps
  refine ⟨highMemory_placed, highMemory_counts, s, t, hcall, hfree, ?_, fun howned => ?_⟩
  · have hrun : ReflTransGen (PmmStep 0xffff800000000000 (2 ^ 31)) ⟨highMemory, []⟩ _ :=
      .single (.allocate (by decide) (by decide) hcall)
    have hrun' := hrun.tail (.free (b := ⟨0x100000000, 0x80001⟩) (by simp) (by decide) hfree)
    rwa [List.erase_cons_head] at hrun'
  · have hin : 0x108000 ∈ highMemory.pmm.setBits ∪ livePages [] :=
      howned.bits ▸ Pmm.mem_setBits.mpr hbit
    rw [livePages, List.foldr_nil, union_empty, Pmm.mem_setBits, highMemory_test] at hin
    exact absurd hin (by decide)

end GarnOS
