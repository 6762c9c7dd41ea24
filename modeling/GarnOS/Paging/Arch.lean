import GarnOS.Paging.Entry

/-! The x86_64 paging code: mapping, unmapping and lookup of one page, and building,
copying and tearing down whole address spaces. A table pointer is the frame number of the
table; the direct-map offset that the source adds and subtracts cancels. -/
namespace GarnOS
open ByteMemory Outcome

def VMM_PRESENT : BitVec 32 := 1
def VMM_RW : BitVec 32 := 1 <<< 1
def VMM_USER : BitVec 32 := 1 <<< 2
def VMM_WRITE_THROUGH : BitVec 32 := 1 <<< 3
def VMM_CACHE_DISABLE : BitVec 32 := 1 <<< 4
def VMM_ACCESSED : BitVec 32 := 1 <<< 5
def VMM_EXEC_DISABLE : BitVec 64 := 1 <<< 63

def VMM_USER_END : ℕ := 0x800000000000

/-- The indices `Pi`, `PTi`, `PDi` and `PDPi` of a virtual address. -/
def mmIndexer (virtAddr : ℕ) : ℕ × ℕ × ℕ × ℕ :=
  let v := virtAddr / 4096
  let Pi := v % 512
  let v := v / 512
  let PTi := v % 512
  let v := v / 512
  let PDi := v % 512
  let v := v / 512
  (Pi, PTi, PDi, v % 512)

/-- The block `arch_mm_map` repeats for the PDP, the PD and the PT: follow a present entry,
or give it a fresh zeroed table. -/
def nextTable (s : Machine) (table index : ℕ) (flags : BitVec 32) :
    Except Fault (ℕ × Machine) :=
  let currentEntry := readEntry s.mem table index
  if !currentEntry.present then do
    let (phys, s) ← pmmAllocate s 1
    let mem := memset s.mem phys 0 PAGE_SIZE
    let entry := { currentEntry with
      addr := BitVec.ofNat 51 (phys / 4096)
      present := true
      readWrite := true
      userSupervisor := flags &&& VMM_USER != 0 }
    return (phys / 4096, { s with mem := writeEntry mem table index entry })
  else return (currentEntry.frame, s)

/-- The attribute assignments shared by `arch_mm_map` and `arch_mm_set_flags`. `flags` has
32 bits, so the test of bit 63 is always false. -/
def withFlags (entry : PageTableEntry) (flags : BitVec 32) : PageTableEntry :=
  { entry with
    present := flags &&& VMM_PRESENT != 0
    readWrite := flags &&& VMM_RW != 0
    userSupervisor := flags &&& VMM_USER != 0
    writeThrough := flags &&& VMM_WRITE_THROUGH != 0
    cacheDisable := flags &&& VMM_CACHE_DISABLE != 0
    accessed := flags &&& VMM_ACCESSED != 0
    pageSize := false
    nx := flags.setWidth 64 &&& VMM_EXEC_DISABLE != 0 }

def archMmMap (s : Machine) (pt physAddr virtAddr : ℕ) (flags : BitVec 32) :
    Except Fault Machine := do
  let (Pi, PTi, PDi, PDPi) := mmIndexer virtAddr
  let (PDP, s) ← nextTable s pt PDPi flags
  let (PD, s) ← nextTable s PDP PDi flags
  let (PT, s) ← nextTable s PD PTi flags
  let currentEntry := { readEntry s.mem PT Pi with addr := BitVec.ofNat 51 (physAddr / 4096) }
  return { s with mem := writeEntry s.mem PT Pi (withFlags currentEntry flags) }

/-- The test `!currentEntry.present && currentEntry.addr == 0`. -/
def PageTableEntry.vacant (e : PageTableEntry) : Bool := !e.present && e.addr == 0

@[simp] theorem PageTableEntry.empty_vacant : PageTableEntry.empty.vacant = true := by
  simp [vacant]

/-- A step of the two walks that check no level. An absent entry is followed like a present one, but
the direct map starts at `0x1000`: behind an entry without an address the next access faults. -/
def uncheckedTable (m : Mem) (table index : ℕ) : Except Fault ℕ :=
  let currentEntry := readEntry m table index
  if currentEntry.vacant then .error (.pageFault 0) else .ok currentEntry.frame

def archMmUnmap (s : Machine) (pt virtAddr : ℕ) : Except Fault Machine := do
  let (Pi, PTi, PDi, PDPi) := mmIndexer virtAddr
  let PDP ← uncheckedTable s.mem pt PDPi
  let PD ← uncheckedTable s.mem PDP PDi
  let PT ← uncheckedTable s.mem PD PTi
  let currentEntry := { readEntry s.mem PT Pi with present := false, addr := 0 }
  return { s with mem := writeEntry s.mem PT Pi currentEntry }

def archMmIsPageFree (m : Mem) (pt virtAddr : ℕ) : Bool :=
  let (Pi, PTi, PDi, PDPi) := mmIndexer virtAddr
  let e4 := readEntry m pt PDPi
  if e4.vacant then true else
  let e3 := readEntry m e4.frame PDi
  if e3.vacant then true else
  let e2 := readEntry m e3.frame PTi
  if e2.vacant then true else
  (readEntry m e2.frame Pi).vacant

def archMmVirtToPhys (m : Mem) (pt virtAddr : ℕ) : ℕ :=
  let (Pi, PTi, PDi, PDPi) := mmIndexer virtAddr
  let e4 := readEntry m pt PDPi
  if e4.vacant then 0 else
  let e3 := readEntry m e4.frame PDi
  if e3.vacant then 0 else
  let e2 := readEntry m e3.frame PTi
  if e2.vacant then 0 else
  let e1 := readEntry m e2.frame Pi
  -- `(uint64_t)(currentEntry.addr << 12)`: the shift keeps the 51 bits of the field
  if e1.vacant then 0 else e1.frame * 4096 % 2 ^ 51

/-- Entries the address-space loops visit: the lower half of a PML4, all of a lower table. -/
def slots : ℕ → ℕ
  | 4 => 256
  | _ => 512

def archVaspaceNew (s : Machine) (kernelPT : ℕ) : Except Fault (ℕ × Machine) := do
  let (phys, s) ← pmmAllocate s 1
  let mem := memcpy s.mem phys (kernelPT * 4096) PAGE_SIZE
  let mem := memset mem phys 0 (PAGE_SIZE / 2)
  return (phys / 4096, { s with mem := mem })

/-- The nested loops of `arch_vaspace_destroy` below a table of level `n` (PML4 = 4, PDP = 3,
PD = 2, PT = 1): every present child is emptied, then freed. -/
def destroyEntries : ℕ → ℕ → Machine → Except Fault Machine
  | 0, _, s => .ok s
  | n + 1, table, s =>
    forRange (fun i s =>
      let entry := readEntry s.mem table i
      if entry.present then do
        let s ← destroyEntries n entry.frame s
        pmmFree s (entry.frame * 4096) 1
      else .ok s) 0 (slots (n + 1)) s

def archVaspaceDestroy (s : Machine) (pt : ℕ) : Except Fault Machine := do
  let s ← destroyEntries 4 pt s
  pmmFree s (pt * 4096) 1

/-- The nested loops of `arch_vaspace_clear`: as above, and the entry of a child is reset
before the child is freed. -/
def clearEntries : ℕ → ℕ → Machine → Except Fault Machine
  | 0, _, s => .ok s
  | n + 1, table, s =>
    forRange (fun i s =>
      let entry := readEntry s.mem table i
      if entry.present then do
        let s ← clearEntries n entry.frame s
        let reset := { readEntry s.mem table i with present := false, addr := 0 }
        pmmFree { s with mem := writeEntry s.mem table i reset } (entry.frame * 4096) 1
      else .ok s) 0 (slots (n + 1)) s

def archVaspaceClear (s : Machine) (pt : ℕ) : Except Fault Machine := clearEntries 4 pt s

/-- `memcpy(&dst->entries[i], &src->entries[i], sizeof(page_table_entry_t))`. -/
def copyEntry (m : Mem) (src dst i : ℕ) : Mem := memcpy m (entryAddr dst i) (entryAddr src i) 8

/-- The body of the innermost loop of `arch_vaspace_clone`: copy one page to a fresh frame. -/
def clonePage (src dst l : ℕ) (s : Machine) : Except Fault Machine :=
  let page := readEntry s.mem src l
  if page.present then do
    let (newPagePhys, s) ← pmmAllocate s 1
    let mem := memcpy s.mem newPagePhys (page.frame * 4096) PAGE_SIZE
    let mem := copyEntry mem src dst l
    let entry := { readEntry mem dst l with addr := BitVec.ofNat 51 (newPagePhys / 4096) }
    return { s with mem := writeEntry mem dst l entry }
  else .ok s

/-- The nested loops of `arch_vaspace_clone` from the table `src` into the zeroed table `dst`. -/
def cloneEntries : ℕ → ℕ → ℕ → Machine → Except Fault Machine
  | 0, _, _, s => .ok s
  | 1, src, dst, s => forRange (clonePage src dst) 0 (slots 1) s
  | n + 2, src, dst, s =>
    forRange (fun i s =>
      let entry := readEntry s.mem src i
      if entry.present then do
        let s := { s with mem := copyEntry s.mem src dst i }
        let (phys, s) ← pmmAllocate s 1
        let mem := memset s.mem phys 0 PAGE_SIZE
        let copied := { readEntry mem dst i with addr := BitVec.ofNat 51 (phys / 4096) }
        cloneEntries (n + 1) entry.frame (phys / 4096)
          { s with mem := writeEntry mem dst i copied }
      else .ok s) 0 (slots (n + 2)) s

def archVaspaceClone (s : Machine) (kernelPT toClone : ℕ) : Except Fault (ℕ × Machine) := do
  let (clone, s) ← archVaspaceNew s kernelPT
  let s ← cloneEntries 4 toClone clone s
  return (clone, s)

end GarnOS
