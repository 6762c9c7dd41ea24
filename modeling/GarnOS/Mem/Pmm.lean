import GarnOS.Mem.Memutil
import Mathlib.Data.List.GetD

/-! The physical page allocator: a bitmap with one bit per page, most significant bit first,
and two counters. -/
namespace GarnOS
open ByteMemory Outcome

/-- The allocator's globals; `bitmapSize` is the length of the bitmap. `pmm_init` sets it to
`ALIGN_UP(highest, PAGE_SIZE) / PAGE_SIZE / 8` for a 64-bit `highest`. -/
structure Pmm where
  bitmap : List (BitVec 8)
  usedPages : BitVec 64
  freePages : BitVec 64
  size_lt : bitmap.length < 2 ^ 49

/-- Physical memory together with the allocator that hands out its pages. The bitmap is kept apart
from `mem`; `PmmBoot` has it in the memory. -/
structure Machine where
  mem : Mem
  pmm : Pmm

namespace Pmm

def byte (p : Pmm) (i : ℕ) : BitVec 8 := p.bitmap.getD i 0

/-- The commented-out `pmm_bitmap_test` of the source. -/
def test (p : Pmm) (page : ℕ) : Bool := p.byte (page / 8) &&& (0b10000000#8 >>> (page % 8)) != 0

def pages (p : Pmm) : ℕ := 8 * p.bitmap.length

def set (p : Pmm) (page : ℕ) : Pmm where
  bitmap := p.bitmap.set (page / 8) (p.byte (page / 8) ||| (0b10000000#8 >>> (page % 8)))
  usedPages := p.usedPages + 1
  freePages := p.freePages - 1
  size_lt := by simpa using p.size_lt

def clear (p : Pmm) (page : ℕ) : Pmm where
  bitmap := p.bitmap.set (page / 8) (p.byte (page / 8) &&& ~~~(0b10000000#8 >>> (page % 8)))
  usedPages := p.usedPages - 1
  freePages := p.freePages + 1
  size_lt := by simpa using p.size_lt

end Pmm

/-- The bounds check lets the byte behind the bitmap pass. Here that is no byte of the bitmap, and
only the counters change. -/
def pmmBitmapSet (p : Pmm) (page : ℕ) : Except Fault Pmm :=
  if page / 8 > p.bitmap.length then
    .error (.panic "Bitmap bounds exceeded! Attempt to index physical page 0x%x (alloc)" "PMM" [page])
  else .ok (p.set page)

def pmmBitmapClear (p : Pmm) (page : ℕ) : Except Fault Pmm :=
  if page / 8 > p.bitmap.length then
    .error (.panic "Bitmap bounds exceeded! Attempt to index physical page 0x%x (dealloc)" "PMM" [page])
  else .ok (p.clear page)

structure Scan where
  foundPages : ℤ
  base : ℕ
  inChunk : Bool
  deriving DecidableEq, Repr

/-- One pass of the inner loop body; `.error` is its early `return`. -/
def scanBit (p : Pmm) (npages : ℤ) (i j : ℕ) (st : Scan) : Except ℕ Scan :=
  if p.byte i &&& (0b10000000#8 >>> j) = 0 then
    let base := if st.inChunk then st.base else i * 8 + j
    let foundPages := st.foundPages + 1
    if foundPages = npages then .error (base * 4096 % 2 ^ 64)
    else .ok ⟨foundPages, base, true⟩
  else if st.inChunk then .ok ⟨0, st.base, false⟩
  else .ok st

/-- The two nested loops over the bytes `[lo, hi)` of the bitmap. -/
def scanBytes (p : Pmm) (npages : ℤ) (lo hi : ℕ) (st : Scan) : Except ℕ Scan :=
  forRange (fun i => forRange (scanBit p npages i) 0 8) lo (hi - lo) st

def outOfMemory : Fault := .panic "Out of Memory!" "PMM" []

def outOfMemory32 : Fault := .panic "Out of Memory! (32-bit Allocator)" "PMM" []

/-- Pages from 4 GiB on are searched first; the retry scans the whole bitmap. -/
def pmmFindFree (p : Pmm) (npages : ℤ) : Except Fault ℕ :=
  if p.bitmap.length > 131072 then
    match scanBytes p npages 131072 p.bitmap.length ⟨0, 0, false⟩ with
    | .error base => .ok base
    | .ok st =>
      match scanBytes p npages 0 p.bitmap.length ⟨0, st.base, false⟩ with
      | .error base => .ok base
      | .ok _ => .error outOfMemory
  else
    match scanBytes p npages 0 p.bitmap.length ⟨0, 0, false⟩ with
    | .error base => .ok base
    | .ok _ => .error outOfMemory

def pmmFindFree32 (p : Pmm) (npages : ℤ) : Except Fault ℕ :=
  let limit := if p.bitmap.length > 131072 then 131072 else p.bitmap.length
  match scanBytes p npages 0 limit ⟨0, 0, false⟩ with
  | .error base => .ok base
  | .ok _ => .error outOfMemory32

/-- Iterations of `for(i = (base >> 12); i < (base >> 12)+npages; i++)`. -/
def pageCount (base : ℕ) (npages : ℤ) : ℕ := (base / 4096 + u64 npages) % 2 ^ 64 - base / 4096

def pmmAllocate (s : Machine) (npages : ℤ) : Except Fault (ℕ × Machine) := do
  let base ← pmmFindFree s.pmm npages
  let pmm ← forRange (fun i p => pmmBitmapSet p i) (base / 4096) (pageCount base npages) s.pmm
  return (base, { s with pmm := pmm })

def pmmAllocate32 (s : Machine) (npages : ℤ) : Except Fault (ℕ × Machine) := do
  let base ← pmmFindFree32 s.pmm npages
  let pmm ← forRange (fun i p => pmmBitmapSet p i) (base / 4096) (pageCount base npages) s.pmm
  return (base, { s with pmm := pmm })

/-- Where the `memset` of `pmm_free` starts: the offset is computed in `int`. -/
def lastPage (base : ℕ) (npages : ℤ) : ℕ :=
  (base + u64 (int32 ((npages - 1) * PAGE_SIZE))) % 2 ^ 64

/-- Every pass of the loop overwrites the same page, then clears its own bit. -/
def pmmFree (s : Machine) (base : ℕ) (npages : ℤ) : Except Fault Machine :=
  forRange (fun i s => do
    let mem := memset s.mem (lastPage base npages) 0xff PAGE_SIZE
    let pmm ← pmmBitmapClear s.pmm i
    return ⟨mem, pmm⟩) (base / 4096) (pageCount base npages) s

end GarnOS
