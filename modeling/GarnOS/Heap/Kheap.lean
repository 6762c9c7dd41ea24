import GarnOS.Mem.PmmAlloc

/-! The kernel heap: blocks with in-band headers on one doubly linked list. The spinlock and the
log messages are left out. -/
namespace GarnOS
open ByteMemory Outcome

/-- The base of the direct map, as `bl_get_hhdm_offset` returns it. Kernel pointers to the heap
lie in the direct map. -/
structure Hhdm where
  base : ℕ
  pos : 0 < base
  aligned : base % PAGE_SIZE = 0

def Hhdm.phys (hhdm : Hhdm) (h : ℕ) : ℕ := h - hhdm.base

def headerSize : ℕ := 32

def KHEAP_FLAGS_FREE : BitVec 8 := 1
def KHEAP_INIT_PAGES : ℕ := 25000

/-- The fields of `kheap_block_header_t`, at offsets 0, 8, 16 and 24. -/
@[ext] structure Header where
  size : ℕ
  flags : BitVec 8
  next : ℕ
  prev : ℕ
  deriving DecidableEq, Repr

def readHeader (m : Mem) (a : ℕ) : Header :=
  ⟨(word m a).toNat, m (a + 8), (word m (a + 16)).toNat, (word m (a + 24)).toNat⟩

def setSize (m : Mem) (a v : ℕ) : Mem := setWord m a (BitVec.ofNat 64 v)

def setFlags (m : Mem) (a : ℕ) (v : BitVec 8) : Mem := Function.update m (a + 8) v

def setNext (m : Mem) (a v : ℕ) : Mem := setWord m (a + 16) (BitVec.ofNat 64 v)

def setPrev (m : Mem) (a v : ℕ) : Mem := setWord m (a + 24) (BitVec.ofNat 64 v)

/-- The machine with the globals `start`, `end` and `kheapSize`. -/
structure KHeap extends Machine where
  start : ℕ
  kheapEnd : ℕ
  kheapSize : ℕ

def KHeap.header (hhdm : Hhdm) (s : KHeap) (h : ℕ) : Header := readHeader s.mem (hhdm.phys h)

/-- The stores of `kheap_extend` to the new block and to the last one. -/
def extendStores (hhdm : Hhdm) (m : Mem) (newh last size : ℕ) : Mem :=
  let m := memset m (hhdm.phys newh) 0 size
  let m := setSize m (hhdm.phys newh) (u64 ((size : ℤ) - headerSize))
  let m := setFlags m (hhdm.phys newh) KHEAP_FLAGS_FREE
  let m := setPrev m (hhdm.phys newh) last
  let m := setNext m (hhdm.phys newh) 0
  setNext m (hhdm.phys last) newh

def kheapExtend (hhdm : Hhdm) (s : KHeap) (size : ℕ) : Except Fault KHeap := do
  let size := (size + headerSize) % 2 ^ 64
  let size := if size % PAGE_SIZE ≠ 0 then ALIGN_UP size PAGE_SIZE else size
  let (base, machine) ← pmmAllocate s.toMachine (int32 (size / PAGE_SIZE : ℕ))
  let newh := (base + hhdm.base) % 2 ^ 64
  return { mem := extendStores hhdm machine.mem newh s.kheapEnd size, pmm := machine.pmm,
           start := s.start, kheapEnd := newh, kheapSize := (s.kheapSize + size) % 2 ^ 64 }

/-- The stores of `kheap_create_block` to the headers of `h` and `newh`. -/
def createBlockStores (hhdm : Hhdm) (m : Mem) (h newh size : ℕ) : Mem :=
  let m := memset m (hhdm.phys newh) 0 headerSize
  let m := setSize m (hhdm.phys newh)
    (u64 ((readHeader m (hhdm.phys h)).size - (size + headerSize : ℕ)))
  let m := setSize m (hhdm.phys h) size
  let m := setNext m (hhdm.phys newh) (readHeader m (hhdm.phys h)).next
  let m := setNext m (hhdm.phys h) newh
  let m := setPrev m (hhdm.phys newh) h
  setFlags m (hhdm.phys newh) KHEAP_FLAGS_FREE

def kheapCreateBlock (hhdm : Hhdm) (s : KHeap) (h size : ℕ) : KHeap :=
  let newh := (h + headerSize + size) % 2 ^ 64
  let m := createBlockStores hhdm s.mem h newh size
  let next := (readHeader m (hhdm.phys newh)).next
  let m := if next ≠ 0 then setPrev m (hhdm.phys next) newh else m
  { s with mem := m, kheapEnd := if h = s.kheapEnd then newh else s.kheapEnd }

def kheapInit (hhdm : Hhdm) (s : Machine) : Except Fault KHeap := do
  let (base, machine) ← pmmAllocate s KHEAP_INIT_PAGES
  let start := (base + hhdm.base) % 2 ^ 64
  let m := memset machine.mem (hhdm.phys start) 0 headerSize
  let m := setSize m (hhdm.phys start) (KHEAP_INIT_PAGES * PAGE_SIZE - headerSize)
  let m := setPrev m (hhdm.phys start) 0
  let m := setNext m (hhdm.phys start) 0
  let m := setFlags m (hhdm.phys start) KHEAP_FLAGS_FREE
  return { mem := m, pmm := machine.pmm, start := start, kheapEnd := start,
           kheapSize := PAGE_SIZE * KHEAP_INIT_PAGES }

/-- `h->flags &= ~(KHEAP_FLAGS_FREE)` and the returned pointer. -/
def kheapTake (hhdm : Hhdm) (s : KHeap) (h : ℕ) : ℕ × KHeap :=
  let flags := (s.header hhdm h).flags
  ((h + headerSize) % 2 ^ 64,
    { s with mem := setFlags s.mem (hhdm.phys h) (flags &&& ~~~KHEAP_FLAGS_FREE) })

/-- The loop of `kmalloc` from the block `h` on, giving up after `fuel` blocks. -/
def kmallocScan (hhdm : Hhdm) (s : KHeap) (size : ℕ) : ℕ → ℕ → Except Fault (Option (ℕ × KHeap))
  | 0, _ => .error .diverges
  | fuel + 1, h =>
    if h = 0 then .ok none
    else
      let hsize := (s.header hhdm h).size
      let next := (s.header hhdm h).next
      if (s.header hhdm h).flags &&& KHEAP_FLAGS_FREE = 0 ∨ hsize < size then
        kmallocScan hhdm s size fuel next
      else if hsize = size ∨ (hsize > size ∧ hsize ≤ size + headerSize) then
        .ok (some (kheapTake hhdm s h))
      else if hsize > size + headerSize then
        .ok (some (kheapTake hhdm (kheapCreateBlock hhdm s h size) h))
      else kmallocScan hhdm s size fuel next

/-- `kmalloc` with its recursive call, at most `tries` times. A list of more than
`kheapSize / 32` blocks would not fit in the heap. -/
def kmallocTries (hhdm : Hhdm) : ℕ → KHeap → ℕ → Except Fault (ℕ × KHeap)
  | 0, _, _ => .error .diverges
  | tries + 1, s, size => do
    let size := if size % 0x10 ≠ 0 then ALIGN_UP size 0x10 else size
    match ← kmallocScan hhdm s size (s.kheapSize / headerSize + 1) s.start with
    | some r => return r
    | none =>
      let s ← kheapExtend hhdm s size
      kmallocTries hhdm tries s size

/-- The second try finds the block that the first one appended. -/
def kmalloc (hhdm : Hhdm) (s : KHeap) (size : ℕ) : Except Fault (ℕ × KHeap) :=
  kmallocTries hhdm 2 s size

/-- Both merges of `kmfree`: `a` takes over its successor `b`. -/
def kheapAbsorb (hhdm : Hhdm) (s : KHeap) (a b : ℕ) : KHeap :=
  let kheapEnd := if b = s.kheapEnd then a else s.kheapEnd
  let m := setSize s.mem (hhdm.phys a)
    (((s.header hhdm a).size + ((s.header hhdm b).size + headerSize)) % 2 ^ 64)
  let next := (readHeader m (hhdm.phys b)).next
  let m := if next ≠ 0 then setPrev m (hhdm.phys next) a else m
  let m := setNext m (hhdm.phys a) (readHeader m (hhdm.phys b)).next
  { s with mem := m, kheapEnd := kheapEnd }

/-- The block at `b` starts where the block at `a` ends. -/
def kheapAdjacent (hhdm : Hhdm) (s : KHeap) (a b : ℕ) : Prop :=
  (a + (s.header hhdm a).size + headerSize) % 2 ^ 64 = b

instance (hhdm : Hhdm) (s : KHeap) (a b : ℕ) : Decidable (kheapAdjacent hhdm s a b) :=
  inferInstanceAs (Decidable (_ = _))

def isFree (flags : BitVec 8) : Bool := flags &&& KHEAP_FLAGS_FREE != 0

def kheapJoinNext (hhdm : Hhdm) (s : KHeap) (h : ℕ) : KHeap :=
  let next := (s.header hhdm h).next
  if next ≠ 0 ∧ isFree (s.header hhdm next).flags ∧ kheapAdjacent hhdm s h next then
    kheapAbsorb hhdm s h next
  else s

def kheapJoinPrev (hhdm : Hhdm) (s : KHeap) (h : ℕ) : KHeap :=
  let prev := (s.header hhdm h).prev
  if prev ≠ 0 ∧ isFree (s.header hhdm prev).flags ∧ kheapAdjacent hhdm s prev h then
    kheapAbsorb hhdm s prev h
  else s

def kmfree (hhdm : Hhdm) (s : KHeap) (ptr : ℕ) : KHeap :=
  if ptr = 0 then s
  else
    let h := u64 (ptr - headerSize)
    let flags := (s.header hhdm h).flags
    let s := { s with mem := setFlags s.mem (hhdm.phys h) (flags ||| KHEAP_FLAGS_FREE) }
    kheapJoinPrev hhdm (kheapJoinNext hhdm s h) h

end GarnOS
