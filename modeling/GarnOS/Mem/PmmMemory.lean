import GarnOS.Mem.PmmAlloc
import GarnOS.Mem.PmmInit

/-! The allocator on the memory that holds its bitmap. `pmm_free` fills a page of that memory. As long
as this is not one of the bitmap's, a call does to the bits what it does to a bitmap kept apart. -/
namespace GarnOS
open ByteMemory Outcome FirstFit
namespace PmmBoot

/-- The common part of `pmm_allocate` and `pmm_allocate32`. -/
def allocateWith (find : Pmm → ℤ → Except Fault ℕ) (s : PmmBoot) (npages : ℤ) :
    Except Fault (ℕ × PmmBoot) := do
  let base ← find s.pmm npages
  let s ← forRange (fun i s => s.bitmapSet i) (base / 4096) (pageCount base npages) s
  return (base, s)

def allocate (s : PmmBoot) (npages : ℤ) : Except Fault (ℕ × PmmBoot) :=
  allocateWith pmmFindFree s npages

def allocate32 (s : PmmBoot) (npages : ℤ) : Except Fault (ℕ × PmmBoot) :=
  allocateWith pmmFindFree32 s npages

/-- `memset` behind the HHDM offset. The direct map starts at `0x1000`. -/
def memsetDirect (hhdm : ℕ) (m : Mem) (physAddr : ℕ) (c : BitVec 8) (n : ℕ) : Except Fault Mem :=
  if physAddr < 0x1000 ∨ 2 ^ 64 < hhdm + physAddr + n then
    .error (.pageFault ((hhdm + physAddr) % 2 ^ 64))
  else .ok (memset m physAddr c n)

def free (hhdm : ℕ) (s : PmmBoot) (base : ℕ) (npages : ℤ) : Except Fault PmmBoot :=
  forRange (fun i s => do
    let mem ← memsetDirect hhdm s.mem (lastPage base npages) 0xff PAGE_SIZE
    bitmapClear { s with mem := mem } i) (base / 4096) (pageCount base npages) s

def InBitmap (s : PmmBoot) (x : ℕ) : Prop := s.bitmap ≤ x ∧ x < s.bitmap + s.bitmapSize

variable {s : PmmBoot} {page b n hhdm : ℕ}

theorem pmm_congr {m : Mem} (h : ∀ x, s.InBitmap x → m x = s.mem x) :
    ({ s with mem := m } : PmmBoot).pmm = s.pmm := by
  rw [pmm, pmm, Pmm.mk.injEq]
  refine ⟨List.map_congr_left fun i hi => h _ ⟨Nat.le_add_right _ _, ?_⟩, rfl, rfl⟩
  exact Nat.add_lt_add_left (List.mem_range.mp hi) _

theorem markLoop_post {E : Fault → Prop} (h : b + n ≤ s.pmm.pages) :
    Post (forRange (fun i s => bitmapSet s i) (b * 4096 / 4096) (pageCount (b * 4096) n) s)
      (fun t => Marked s.pmm b n t.pmm ∧ Keeps s t) E := by
  have hlt := s.pmm.pages_lt
  rw [pageCount_eq (by omega), Nat.mul_div_cancel _ (by decide)]
  refine (forRange_post (fun i t => Marked s.pmm b (i - b) t.pmm ∧ Keeps s t)
    ⟨.start _ _, rfl, rfl⟩ fun i t hlo hi ht => ?_).mono_ok fun t ht => by simpa using ht
  obtain ⟨hm, hkeeps⟩ := ht
  have hi : i < t.pmm.pages := by
    rw [pages_congr hm.length]
    omega
  obtain ⟨u, hu, hkeeps', hset⟩ := @bitmapSet_eq t i (by rw [pages_pmm] at hi; omega)
  rw [hu]
  exact post_ok.mpr ⟨hset ▸ hm.set hlo hi, hkeeps.trans hkeeps'⟩

theorem allocate_post (s : PmmBoot) (hn : 0 < n) : Post (s.allocate n)
      (fun r => ∃ b, r.1 = b * 4096 ∧ HighFirst s.pmm n b ∧ Marked s.pmm b n r.2.pmm ∧ Keeps s r.2)
      (fun e => e = outOfMemory ∧ NoRun s.pmm.Free 0 s.pmm.pages n) := by
  apply (pmmFindFree_post s.pmm hn).bind
  rintro _ ⟨b, rfl, hfirst⟩
  apply (markLoop_post hfirst.fits.1).bind
  rintro t ⟨hm, hkeeps⟩
  exact post_pure.mpr ⟨b, rfl, hfirst, hm, hkeeps⟩

theorem allocate32_post (s : PmmBoot) (hn : 0 < n) : Post (s.allocate32 n)
      (fun r => ∃ b, r.1 = b * 4096 ∧ First s.pmm.Free 0 (limit32 s.pmm) n b ∧
        Marked s.pmm b n r.2.pmm ∧ Keeps s r.2)
      (fun e => e = outOfMemory32 ∧ NoRun s.pmm.Free 0 (limit32 s.pmm) n) := by
  apply (pmmFindFree32_post s.pmm hn).bind
  rintro _ ⟨b, rfl, hfirst⟩
  apply (markLoop_post (hfirst.le.trans (min_le_left _ _))).bind
  rintro t ⟨hm, hkeeps⟩
  exact post_pure.mpr ⟨b, rfl, hfirst, hm, hkeeps⟩

/-- A block of the direct map whose last page is not the bitmap's. -/
structure Freeable (hhdm : ℕ) (s : PmmBoot) (b n : ℕ) : Prop where
  small : n ≤ 2 ^ 19
  fits : b + n ≤ 8 * s.bitmapSize
  mapped : 2 ≤ b + n ∧ hhdm + (b + n) * 4096 ≤ 2 ^ 64
  apart : ∀ x, (b + n - 1) * 4096 ≤ x → x < (b + n) * 4096 → ¬s.InBitmap x

theorem free_post (hn : 0 < n) (hfree : Freeable hhdm s b n) :
    Post (s.free hhdm (b * 4096) n) (fun t => Unmarked s.pmm b n t.pmm ∧ Keeps s t)
      (fun _ => False) := by
  obtain ⟨hsmall, hfits, ⟨hlow, hhigh⟩, hapart⟩ := hfree
  have hlt := s.size_lt
  have hlast : lastPage (b * 4096) n = (b + n - 1) * 4096 := lastPage_eq hn hsmall (by omega)
  unfold free
  rw [pageCount_eq (by omega), Nat.mul_div_cancel _ (by decide), hlast]
  refine (forRange_post (fun i t => Unmarked s.pmm b (i - b) t.pmm ∧ Keeps s t)
    ⟨.start _ _, rfl, rfl⟩ fun i t hlo hi ht => ?_).mono_ok fun t ht => by simpa using ht
  obtain ⟨hun, hkeeps⟩ := ht
  have hset : memsetDirect hhdm t.mem ((b + n - 1) * 4096) 0xff PAGE_SIZE =
      .ok (fill t.mem ((b + n - 1) * 4096) 4096 0xff) := by
    rw [memsetDirect, memset_eq_fill]
    unfold PAGE_SIZE
    exact if_neg (by omega)
  have hpmm : ({ t with mem := fill t.mem ((b + n - 1) * 4096) 4096 0xff } : PmmBoot).pmm = t.pmm := by
    refine pmm_congr fun x hx => if_neg fun hin => hapart x hin.1 (by omega) ?_
    rwa [InBitmap, ← hkeeps.bitmap, ← hkeeps.bitmapSize]
  have hsize := hkeeps.bitmapSize
  obtain ⟨u, hu, hkeeps', hclear, -⟩ :=
    @bitmapClear_eq { t with mem := fill t.mem ((b + n - 1) * 4096) 4096 0xff } i
      (by dsimp only; omega)
  rw [hpmm] at hclear
  rw [hset, ok_bind, hu]
  exact post_ok.mpr
    ⟨hclear ▸ hun.clear hlo, hkeeps.trans ⟨hkeeps'.bitmap, hkeeps'.bitmapSize⟩⟩

end PmmBoot

end GarnOS
