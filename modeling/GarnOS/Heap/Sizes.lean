import GarnOS.Heap.Contract

/-! The sizes that `kmalloc` is asked for: rounding wraps near `2 ^ 64`, and the page count of
`kheap_extend` is cut to an `int`. -/
namespace GarnOS
open ByteMemory BlockList Outcome FirstFit Finset Nat

section Search
variable {p : Pmm} {npages : ℤ}

theorem scanBytes_nonpos (h : npages ≤ 0) (lo hi : ℕ) (st : Scan) (hst : 0 ≤ st.foundPages) :
    Post (scanBytes p npages lo hi st) (fun st => 0 ≤ st.foundPages) (fun _ => False) := by
  apply forRange_post (fun _ (st : Scan) => 0 ≤ st.foundPages) hst
  intro i st _ _ hst
  apply forRange_post (fun _ (st : Scan) => 0 ≤ st.foundPages) hst
  intro j st _ _ hst
  unfold scanBit
  split
  · rw [if_neg (by omega)]
    exact post_ok.mpr (by dsimp only; omega)
  · split
    · exact post_ok.mpr le_rfl
    · exact post_ok.mpr hst

theorem pmmFindFree_nonpos (h : npages ≤ 0) : pmmFindFree p npages = .error outOfMemory := by
  have hscan : ∀ lo base, ∃ st, scanBytes p npages lo p.bitmap.length ⟨0, base, false⟩ = .ok st := by
    intro lo base
    have hpost := scanBytes_nonpos (p := p) h lo p.bitmap.length ⟨0, base, false⟩ le_rfl
    obtain ⟨st, hst, -⟩ := hpost.returns
    exact ⟨st, hst⟩
  unfold pmmFindFree
  split
  · obtain ⟨st, hst⟩ := hscan 131072 0
    obtain ⟨st', hst'⟩ := hscan 0 st.base
    rw [hst]
    dsimp only
    rw [hst']
  · obtain ⟨st, hst⟩ := hscan 0 0
    rw [hst]

theorem pmmAllocate_nonpos (s : Machine) (h : npages ≤ 0) :
    pmmAllocate s npages = .error outOfMemory := by
  rw [pmmAllocate, pmmFindFree_nonpos h]
  rfl

end Search

def passedPages (n : ℕ) : ℤ := int32 (extendSize n / PAGE_SIZE : ℕ)

/-- The states in which `kmalloc` of `n` bytes calls `kheap_extend`: the one it starts from, and
those that earlier calls left. -/
inductive CallsExtend (hhdm : Hhdm) : KHeap → ℕ → KHeap → Prop
  | first {s : KHeap} {n : ℕ} (hscan : kmallocScan hhdm s (heapAlign n)
      (s.kheapSize / headerSize + 1) s.start = .ok none) : CallsExtend hhdm s n s
  | later {s t u : KHeap} {n : ℕ} (hscan : kmallocScan hhdm s (heapAlign n)
      (s.kheapSize / headerSize + 1) s.start = .ok none)
      (ht : kheapExtend hhdm s (heapAlign n) = .ok t) (hu : CallsExtend hhdm t (heapAlign n) u) :
      CallsExtend hhdm s n u

/-- What a call of `kheap_extend` clears and what it claims for the new block lies in the pages that
it has taken from the allocator. -/
structure ExtendCovered (hhdm : Hhdm) (s : KHeap) (n : ℕ) (t : KHeap) : Prop where
  cleared : ∀ x, hhdm.phys t.kheapEnd ≤ x → x < hhdm.phys t.kheapEnd + extendSize n →
    x / 4096 ∈ t.pmm.setBits \ s.pmm.setBits
  claimed : ∀ x, hhdm.phys t.kheapEnd ≤ x →
    x < hhdm.phys t.kheapEnd + headerSize + (t.header hhdm t.kheapEnd).size →
    x / 4096 ∈ t.pmm.setBits \ s.pmm.setBits

/-- The caller gets what it asked for, and the heap does not grow beyond its pages. -/
structure SizeKept (hhdm : Hhdm) (s : KHeap) (n : ℕ) : Prop where
  enough : ∀ p s', kmalloc hhdm s n = .ok (p, s') → n ≤ (s'.header hhdm (p - 32)).size
  covered : ∀ u t, CallsExtend hhdm s n u → kheapExtend hhdm u (heapAlign n) = .ok t →
    ExtendCovered hhdm u (heapAlign n) t

/-- When a size does no harm: one that wraps to 0 if there is nothing to hand out, one whose page
count does not fit in an `int` if no pages are needed or none are found. -/
structure SizeHarmless (s : KHeap) (bs : List Block) (n : ℕ) : Prop where
  wrap : 2 ^ 64 - 16 < n → (∀ b ∈ bs, b.free = false) ∧ NoRun s.pmm.Free 0 s.pmm.pages 1
  cut : n ≤ 2 ^ 64 - 32 → 2 ^ 31 ≤ heapPages (heapRound n) → (∃ b ∈ bs, Fits (heapRound n) b) ∨
    int32 (heapPages (heapRound n)) ≤ 0 ∨
    NoRun s.pmm.Free 0 s.pmm.pages (int32 (heapPages (heapRound n))).toNat

section Arithmetic
variable {n : ℕ}

theorem heapAlign_idem (n : ℕ) : heapAlign (heapAlign n) = heapAlign n :=
  heapAlign_of_mod (heapAlign_mod n)

theorem heapAlign_wrap (h : 2 ^ 64 - 16 < n) (hn : n < 2 ^ 64) : heapAlign n = 0 := by
  unfold heapAlign ALIGN_UP
  split
  · omega
  · omega

theorem heapAlign_last (h : 2 ^ 64 - 32 < n) (hn : n ≤ 2 ^ 64 - 16) : heapAlign n = 2 ^ 64 - 16 := by
  rw [heapAlign_eq (by omega), heapRound]
  omega

theorem heapPages_last (h : n ≤ 2 ^ 64 - 32) (hge : 2 ^ 64 ≤ heapRound n + 4127) :
    heapPages (heapRound n) = 2 ^ 52 := by
  have hround : heapRound n ≤ 2 ^ 64 - 32 := by
    unfold heapRound
    omega
  unfold heapPages
  omega

theorem passedPages_eq (h : n ≤ 2 ^ 64 - 32) :
    passedPages (heapAlign n) = int32 (heapPages (heapRound n)) := by
  rw [heapAlign_eq (by omega), passedPages, PAGE_SIZE]
  rcases lt_or_ge (heapRound n + 4127) (2 ^ 64) with hlt | hge
  · rw [extendSize_eq hlt, Nat.mul_div_cancel _ (by decide)]
  · have hwrap : extendSize (heapRound n) = 0 := by
      have hround : heapRound n ≤ 2 ^ 64 - 32 := by
        unfold heapRound
        omega
      unfold extendSize ALIGN_UP headerSize PAGE_SIZE
      dsimp only
      split
      all_goals omega
    rw [hwrap, heapPages_last h hge]
    decide

end Arithmetic

section Calls
variable {hhdm : Hhdm} {s t u : KHeap} {b : Block} {bs : List Block} {n k : ℕ}

theorem HeapOn.scan_none (h : HeapOn hhdm s bs) : kmallocScan hhdm s n
    (s.kheapSize / headerSize + 1) s.start = .ok none ↔ ∀ b ∈ bs, ¬Fits n b := by
  have hall : Laid hhdm s ([] ++ bs) := h.toLaid
  rw [h.start]
  rcases hall.scan n h.scan_fuel with ⟨l, b, r, rfl, hfit, hscan⟩ | ⟨hnone, hscan⟩
  · rw [hscan]
    constructor
    · intro heq
      cases Except.ok.inj heq
    · intro hnone
      exact absurd hfit (hnone b (by simp))
  · exact ⟨fun _ => hnone, fun _ => hscan⟩

theorem kheapExtend_nonpos (h : passedPages n ≤ 0) : kheapExtend hhdm s n = .error outOfMemory := by
  unfold passedPages at h
  rw [kheapExtend_extendSize, pmmAllocate_nonpos s.toMachine h]
  rfl

theorem kheapExtend_post (hk : passedPages n = k) (hpos : 0 < k)
    (hmap : hhdm.base + 4096 * s.pmm.pages < 2 ^ 64) :
    Post (kheapExtend hhdm s n)
      (fun t => ¬NoRun s.pmm.Free 0 s.pmm.pages k ∧ ∃ f, hhdm.phys t.kheapEnd = f * 4096 ∧
        t.pmm.setBits \ s.pmm.setBits = Ico f (f + k))
      (fun e => e = outOfMemory ∧ NoRun s.pmm.Free 0 s.pmm.pages k) := by
  unfold passedPages at hk
  rw [kheapExtend_extendSize, hk]
  apply (pmmAllocate_post s.toMachine hpos).bind
  rintro ⟨base, machine⟩ ⟨f, hbase, hfirst, hmark, -⟩
  obtain ⟨hfit, hrun⟩ := hfirst.fits
  apply post_pure.mpr
  refine ⟨fun hno => hno f (zero_le f) hfit hrun, f, ?_, ?_⟩
  · dsimp only at hbase ⊢
    rw [hbase, mod_eq_of_lt (by omega)]
    exact Nat.add_sub_cancel ..
  · rw [hmark.setBits, union_sdiff_cancel_left (Pmm.disjoint_of_run hrun)]

theorem HeapOn.extend_covered (h : HeapOn hhdm s bs) (hsize : extendSize n = k * 4096)
    (hlt : k < 2 ^ 31) (ht : kheapExtend hhdm s n = .ok t) :
    ExtendCovered hhdm s n t ∧ ∃ bs', HeapOn hhdm t bs' := by
  have hpassed : passedPages n = k := by
    rw [passedPages, hsize, PAGE_SIZE, Nat.mul_div_cancel _ (by decide)]
    exact int32_of_range (by omega) (by omega)
  rcases Nat.eq_zero_or_pos k with rfl | hk
  · rw [kheapExtend_nonpos hpassed.le] at ht
    cases ht
  · obtain ⟨-, f, hphys, htaken⟩ := (kheapExtend_post hpassed hk h.direct).of_ok ht
    obtain ⟨f', -, -, hon, -⟩ := (h.extend hsize hk hlt).of_ok ht
    have hin : ∀ x, f * 4096 ≤ x → x < f * 4096 + k * 4096 → x / 4096 ∈ Ico f (f + k) := by
      intro x hlo hhi
      exact mem_Ico.mpr (by omega)
    have hlast : t.kheapEnd = hhdm.ptr (pageBlock f' k) := hon.last.trans lastPtr_append_cons
    have hheader : (t.header hhdm t.kheapEnd).size = k * 4096 - 32 := by
      rw [hlast]
      exact (hon.mem_header (by simp)).1
    refine ⟨⟨?_, ?_⟩, _, hon⟩
    · rw [hphys, hsize, htaken]
      exact hin
    · rw [hphys, hheader, htaken, headerSize]
      intro x hlo hhi
      have hsum : f * 4096 + 32 + (k * 4096 - 32) = f * 4096 + k * 4096 := by omega
      rw [hsum] at hhi
      exact hin x hlo hhi

theorem CallsExtend.heapOn (hu : CallsExtend hhdm s n u) (h : HeapOn hhdm s bs)
    (hsize : extendSize (heapAlign n) = k * 4096) (hlt : k < 2 ^ 31) : ∃ bs', HeapOn hhdm u bs' := by
  induction hu generalizing bs with
  | first => exact ⟨bs, h⟩
  | later hscan ht _ ih =>
    obtain ⟨-, bs', hon⟩ := h.extend_covered hsize hlt ht
    exact ih hon (by rw [heapAlign_idem]; exact hsize)

theorem HeapOn.granted_header {l r : List Block}
    (h : HeapOn hhdm s (l ++ (BlockList.carve 32 n b ++ r))) :
    (s.header hhdm (hhdm.ptr b + 32 - 32)).size = (granted 32 n b).size := by
  have hptr : hhdm.ptr b = hhdm.ptr (granted 32 n b) := by rw [Hhdm.ptr, Hhdm.ptr, granted_addr]
  rw [Nat.add_sub_cancel, hptr]
  exact (h.mem_header (by simp [granted_mem_carve])).1

theorem HeapOn.size_lt (h : HeapOn hhdm s bs) (hb : b ∈ bs) : b.size < 2 ^ 64 - 32 := by
  have hbound := h.bound b hb
  unfold Block.stop at hbound
  omega

theorem HeapOn.tries_enough (h : HeapOn hhdm s bs) {tries p : ℕ} {s' : KHeap}
    (hext : ∀ u t, CallsExtend hhdm s n u → kheapExtend hhdm u (heapAlign n) = .ok t →
      ∃ bs', HeapOn hhdm t bs')
    (hcall : kmallocTries hhdm tries s n = .ok (p, s')) :
    heapAlign n ≤ (s'.header hhdm (p - 32)).size := by
  induction tries generalizing s bs n with
  | zero => cases hcall
  | succ tries ih =>
    rcases h.try n with ⟨l, b, r, s₁, -, hfit, htry, hheap, -⟩ | ⟨hnone, htry⟩
    · rw [htry] at hcall
      cases hcall
      rw [hheap.granted_header]
      exact le_granted_size hfit.2
    · rw [htry] at hcall
      obtain ⟨t, ht, hrest⟩ := bind_eq_ok.mp hcall
      have hscan := h.scan_none.mpr hnone
      obtain ⟨bs', hon⟩ := hext s t (.first hscan) ht
      rw [← heapAlign_idem n]
      apply ih hon _ hrest
      intro u t' hu
      rw [heapAlign_idem]
      exact hext u t' (.later hscan ht hu)

theorem CallsExtend.no_fit (hu : CallsExtend hhdm s n u) (h : HeapOn hhdm s bs) :
    ∀ b ∈ bs, ¬Fits (heapAlign n) b := by
  apply h.scan_none.mp
  cases hu with
  | first hscan | later hscan => exact hscan

section
variable (h : HeapOn hhdm s bs)
include h

theorem HeapOn.kept_of_stuck (hn : n ≤ heapAlign n ∨ ∀ b ∈ bs, ¬Fits 0 b)
    (hstuck : (∃ b ∈ bs, Fits (heapAlign n) b) ∨ ∀ t, kheapExtend hhdm s (heapAlign n) ≠ .ok t) :
    SizeKept hhdm s n := by
  have hnever : ∀ u t, CallsExtend hhdm s n u → kheapExtend hhdm u (heapAlign n) = .ok t →
      False := by
    intro u t hu ht
    rcases hstuck with ⟨b, hb, hfit⟩ | hfail
    · exact hu.no_fit h b hb hfit
    · cases hu with
      | first => exact hfail t ht
      | later _ ht' => exact hfail _ ht'
  refine ⟨?_, fun u t hu ht => (hnever u t hu ht).elim⟩
  intro p s' hcall
  rcases hn with hle | hused
  · exact hle.trans (h.tries_enough (fun u t hu ht => (hnever u t hu ht).elim) hcall)
  · rcases h.try n with ⟨l, b, r, s₁, rfl, hfit, -, -, -⟩ | ⟨hnone, htry⟩
    · exact absurd ⟨hfit.1, zero_le _⟩ (hused b (by simp))
    · unfold kmalloc at hcall
      rw [htry] at hcall
      obtain ⟨t, ht, -⟩ := bind_eq_ok.mp hcall
      exact (hnever s t (.first (h.scan_none.mpr hnone)) ht).elim

theorem HeapOn.kept_of_lt (hn : n ≤ heapAlign n) (hsize : extendSize (heapAlign n) = k * 4096)
    (hlt : k < 2 ^ 31) : SizeKept hhdm s n := by
  have hext : ∀ u t, CallsExtend hhdm s n u → kheapExtend hhdm u (heapAlign n) = .ok t →
      ExtendCovered hhdm u (heapAlign n) t ∧ ∃ bs', HeapOn hhdm t bs' := by
    intro u t hu ht
    obtain ⟨bs', hon⟩ := hu.heapOn h hsize hlt
    exact hon.extend_covered hsize hlt ht
  exact ⟨fun p s' hcall => hn.trans (h.tries_enough (fun u t hu ht => (hext u t hu ht).2) hcall),
    fun u t hu ht => (hext u t hu ht).1⟩

theorem HeapOn.extend_fails
    (hk : passedPages n ≤ 0 ∨ NoRun s.pmm.Free 0 s.pmm.pages (passedPages n).toNat) (t : KHeap) :
    kheapExtend hhdm s n ≠ .ok t := by
  intro ht
  rcases lt_or_ge 0 (passedPages n) with hpos | hneg
  · rcases hk with hneg | hno
    · omega
    · have hnat : passedPages n = (passedPages n).toNat := by omega
      exact ((kheapExtend_post hnat (by omega) h.direct).of_ok ht).1 hno
  · rw [kheapExtend_nonpos hneg] at ht
    cases ht

theorem HeapOn.sizeKept (hn : n < 2 ^ 64) (hc : SizeHarmless s bs n) : SizeKept hhdm s n := by
  rcases lt_or_ge (2 ^ 64 - 16) n with hwrap | hle
  · -- the size is 0
    obtain ⟨hused, hno⟩ := hc.wrap hwrap
    have hnone : ∀ b ∈ bs, ¬Fits 0 b := by
      intro b hb hfit
      exact absurd (hfit.1.symm.trans (hused b hb)) (by decide)
    apply h.kept_of_stuck (Or.inr hnone) (Or.inr (h.extend_fails (Or.inr _)))
    rw [heapAlign_wrap hwrap hn]
    exact hno
  · have hround : n ≤ heapAlign n := by
      rw [heapAlign_eq (by omega), heapRound]
      omega
    rcases lt_or_ge (2 ^ 64 - 32) n with hlast | hle'
    · -- the header makes it wrap to one page
      apply h.kept_of_lt hround (k := 1) _ (by decide)
      rw [heapAlign_last hlast hle]
      decide
    · have halign : heapAlign n = heapRound n := heapAlign_eq (by omega)
      rcases lt_or_ge (heapPages (heapRound n)) (2 ^ 31) with hlt | hge
      · apply h.kept_of_lt hround _ hlt
        rw [halign]
        apply extendSize_eq
        unfold heapPages at hlt
        omega
      · have hcut := hc.cut hle' hge
        rw [← passedPages_eq hle', ← halign] at hcut
        rcases hcut with hfit | hfail
        · exact h.kept_of_stuck (Or.inl hround) (Or.inl hfit)
        · exact h.kept_of_stuck (Or.inl hround) (Or.inr (h.extend_fails hfail))

end

theorem SizeKept.wrap (hk : SizeKept hhdm s n) (h : HeapOn hhdm s bs) (hn : n < 2 ^ 64)
    (hwrap : 2 ^ 64 - 16 < n) :
    (∀ b ∈ bs, b.free = false) ∧ NoRun s.pmm.Free 0 s.pmm.pages 1 := by
  have halign := heapAlign_wrap hwrap hn
  have hsize : extendSize (heapAlign n) = 1 * 4096 := by
    rw [halign]
    decide
  have hmalloc := h.malloc_pages hsize (by decide) (by decide) (by rw [halign]; exact zero_le _)
  cases hcall : kmalloc hhdm s n with
  | ok r =>
    obtain ⟨p, s'⟩ := r
    obtain ⟨pre, b, post, hal⟩ := hmalloc.of_ok hcall
    obtain rfl : p = hhdm.ptr b + 32 := hal.ptr
    have henough := hk.enough _ s' hcall
    rw [hal.heap.granted_header] at henough
    have hlt := hal.heap.size_lt (b := granted 32 (heapAlign n) b) (by simp [granted_mem_carve])
    omega
  | error e =>
    refine ⟨fun b hb => ?_, (hmalloc.of_error hcall).2⟩
    rcases h.try n with ⟨l, c, r, s', -, -, htry, -, -⟩ | ⟨hnone, -⟩
    · cases (htry 1).symm.trans hcall
    · have hnot := hnone b hb
      rw [halign] at hnot
      cases hfree : b.free with
      | false => rfl
      | true => exact absurd ⟨hfree, zero_le _⟩ hnot

theorem SizeKept.cut (hk : SizeKept hhdm s n) (h : HeapOn hhdm s bs) (hn : n ≤ 2 ^ 64 - 32)
    (hge : 2 ^ 31 ≤ heapPages (heapRound n)) (hnone : ∀ b ∈ bs, ¬Fits (heapRound n) b)
    (hpos : 0 < int32 (heapPages (heapRound n))) :
    NoRun s.pmm.Free 0 s.pmm.pages (int32 (heapPages (heapRound n))).toNat := by
  have halign : heapAlign n = heapRound n := heapAlign_eq (by omega)
  have hpassed := passedPages_eq hn
  set k := (int32 (heapPages (heapRound n))).toNat with hkdef
  have hnat : passedPages (heapAlign n) = k := by omega
  have hpost := kheapExtend_post hnat (by omega) h.direct
  cases hcall : kheapExtend hhdm s (heapAlign n) with
  | error e => exact (hpost.of_error hcall).2
  | ok t =>
    obtain ⟨-, f, hphys, htaken⟩ := hpost.of_ok hcall
    have hfirst : CallsExtend hhdm s n s := .first (h.scan_none.mpr (by rwa [halign]))
    have hcleared := (hk.covered s t hfirst hcall).cleared
    have hsmall : heapRound n + 4127 < 2 ^ 64 := by
      by_contra hwrap
      rw [heapPages_last hn (by omega)] at hpos
      exact absurd hpos (by decide)
    have hlt := int32_lt hge
    rw [hphys, htaken, halign, extendSize_eq hsmall] at hcleared
    -- the first page after those that were taken
    have hnext := hcleared ((f + k) * 4096) (by omega) (by omega)
    rw [Nat.mul_div_cancel _ (by decide), mem_Ico] at hnext
    omega

end Calls

/-- No size is shrunk on the way, exactly for the sizes that do no harm. -/
theorem kmalloc_size_iff (hhdm : Hhdm) (s : KHeap) (bs : List Block) (h : HeapOn hhdm s bs) (n : ℕ)
    (hn : n < 2 ^ 64) : SizeKept hhdm s n ↔ SizeHarmless s bs n := by
  constructor
  · intro hk
    refine ⟨hk.wrap h hn, fun hle hge => ?_⟩
    by_cases hfit : ∃ b ∈ bs, Fits (heapRound n) b
    · exact Or.inl hfit
    · right
      rcases lt_or_ge 0 (int32 (heapPages (heapRound n))) with hpos | hneg
      · exact Or.inr (hk.cut h hle hge (fun b hb hb' => hfit ⟨b, hb, hb'⟩) hpos)
      · exact Or.inl hneg
  · exact h.sizeKept hn

/-- A request whose pages the allocator has and an `int` can count: `kmalloc` finds a block, or it
extends the heap once and its second try takes the block just appended. -/
theorem kmalloc_extends_once (hhdm : Hhdm) (s : KHeap) (bs : List Block) (h : HeapOn hhdm s bs)
    (n : ℕ) (hint : heapPages n < 2 ^ 31)
    (hserved : ∃ r, pmmAllocate s.toMachine (heapPages n : ℕ) = .ok r) :
    (∃ p s', (∀ u, ¬CallsExtend hhdm s n u) ∧
      ∀ tries, kmallocTries hhdm (tries + 1) s n = .ok (p, s')) ∨
    ∃ t c s', kheapExtend hhdm s (heapAlign n) = .ok t ∧ HeapOn hhdm t (bs ++ [c]) ∧
      (∀ u, ¬CallsExtend hhdm t (heapAlign n) u) ∧
      (∀ tries, kmallocTries hhdm (tries + 1) t (heapAlign n) = .ok (hhdm.ptr c + 32, s')) ∧
      ∀ tries, kmallocTries hhdm (tries + 2) s n = .ok (hhdm.ptr c + 32, s') := by
  have hround : heapPages n = heapPages (heapRound n) := by
    unfold heapPages heapRound
    omega
  rw [hround] at hint hserved
  obtain ⟨-, hsize, hpos, hfits⟩ := heapAlign_pages hint
  rcases h.try n with ⟨l, b, r, s', rfl, hfit, hcall, -, -⟩ | ⟨hnone, hcall⟩
  · exact .inl ⟨_, s', fun u hu => hu.no_fit h b (by simp) hfit, hcall⟩
  · obtain ⟨t, hextend⟩ : ∃ t, kheapExtend hhdm s (heapAlign n) = .ok t := by
      obtain ⟨r, halloc⟩ := hserved
      rw [kheapExtend_eq hsize hint, halloc]
      exact ⟨_, rfl⟩
    obtain ⟨f, -, -, hon, -⟩ := (h.extend hsize hpos hint).of_ok hextend
    have hfit : Fits (heapAlign n) (pageBlock f (heapPages (heapRound n))) := ⟨rfl, hfits⟩
    obtain ⟨s', hretry, -, -⟩ := hon.retry hnone hfit
    refine .inr ⟨t, _, s', hextend, hon, fun u hu => ?_, hretry, fun tries => ?_⟩
    · rw [← heapAlign_idem] at hfit
      exact hu.no_fit hon _ (by simp) hfit
    · rw [hcall, hextend, ok_bind, hretry]

/-- A request for as many bytes as the pages of the first block: with the header it needs one page
more. -/
theorem kmalloc_extends_once_freeMemory : ∃ s₀ t p s₁, kheapInit highHalf freeMemory = .ok s₀ ∧
    (∃ r, pmmAllocate s₀.toMachine (heapPages 102400000 : ℕ) = .ok r) ∧
    kheapExtend highHalf s₀ (heapAlign 102400000) = .ok t ∧
    ∀ tries, kmallocTries highHalf (tries + 2) s₀ 102400000 = .ok (p, s₁) := by
  obtain ⟨s₀, f, hinit, hmark, hon⟩ := kheapInit_freeMemory
  have hserved : ∃ r, pmmAllocate s₀.toMachine (heapPages 102400000 : ℕ) = .ok r := by
    have hpost := pmmAllocate_post s₀.toMachine (n := heapPages 102400000) (by decide)
    have hpages : heapPages 102400000 = 25000 + 1 := by decide
    rw [pages_congr hmark.length, freeMemory_pages, hpages] at hpost
    unfold KHEAP_INIT_PAGES at hmark
    obtain ⟨r, hcall, -⟩ := hpost.returns_of_not fun _ ⟨_, hno⟩ => by
      -- 55000 pages are left, and 25001 of them follow each other before or after those of the heap
      by_cases hf : f ≤ 25000
      · exact hno (f + 25000) (zero_le _) (by omega) fun q hq _ =>
          hmark.free_of (freeMemory_free q) (.inr hq)
      · exact hno 0 le_rfl (by decide) fun q _ hq =>
          hmark.free_of (freeMemory_free q) (.inl (by omega))
    exact ⟨r, hcall⟩
  rcases kmalloc_extends_once highHalf s₀ _ hon 102400000 (by decide) hserved with
    ⟨p, s₁, hnever, -⟩ | ⟨t, c, s₁, hextend, -, -, -, hcall⟩
  · have hnone : ∀ b ∈ [pageBlock f KHEAP_INIT_PAGES], ¬Fits (heapAlign 102400000) b := by
      rintro b hb ⟨-, hle⟩
      rw [List.mem_singleton.mp hb] at hle
      exact absurd hle (by decide : ¬heapAlign 102400000 ≤ 25000 * 4096 - 32)
    exact absurd (.first (hon.scan_none.mpr hnone)) (hnever s₀)
  · exact ⟨s₀, t, _, s₁, hinit, hserved, hextend, hcall⟩

theorem kmalloc_size_small : ∃ s₀, kheapInit highHalf freeMemory = .ok s₀ ∧
    SizeKept highHalf s₀ 100 := by
  obtain ⟨s₀, f, hinit, -, hon⟩ := kheapInit_freeMemory
  have hharmless : SizeHarmless s₀ [pageBlock f KHEAP_INIT_PAGES] 100 :=
    ⟨fun h => absurd h (by decide), fun _ h => absurd h (by decide)⟩
  exact ⟨s₀, hinit, (kmalloc_size_iff highHalf s₀ _ hon 100 (by decide)).mpr hharmless⟩

/-- `kmalloc` of `2 ^ 64 - 1` bytes returns a block of none. -/
theorem kmalloc_size_wrapped : ∃ s₀ p s₁, kheapInit highHalf freeMemory = .ok s₀ ∧
    kmalloc highHalf s₀ (2 ^ 64 - 1) = .ok (p, s₁) ∧ (s₁.header highHalf (p - 32)).size = 0 := by
  obtain ⟨s₀, f, hinit, -, hon⟩ := kheapInit_freeMemory
  have halign : heapAlign (2 ^ 64 - 1) = 0 := heapAlign_wrap (by decide) (by decide)
  rcases hon.try (2 ^ 64 - 1) with ⟨l, b, r, s₁, hsplit, -, hcall, hheap, -⟩ | ⟨hnone, -⟩
  · refine ⟨s₀, _, s₁, hinit, hcall 1, ?_⟩
    obtain rfl : pageBlock f KHEAP_INIT_PAGES = b := by
      have hb : b ∈ [pageBlock f KHEAP_INIT_PAGES] := by simp [hsplit]
      exact (List.mem_singleton.mp hb).symm
    rw [hheap.granted_header, halign]
    rfl
  · rw [halign] at hnone
    exact absurd ⟨rfl, zero_le _⟩ (hnone (pageBlock f KHEAP_INIT_PAGES) (by simp))

end GarnOS
