import GarnOS.Paging.Arch

/-! Address spaces as the rest of the kernel uses them, and the two memory system calls.
Page tables come from the direct map, so the `NULL` checks on `pt` never fire. -/
namespace GarnOS
open ByteMemory Outcome

def vmmMap (s : Machine) (pt physAddr virtAddr : ℕ) (flags : BitVec 32) : Except Fault Machine :=
  archMmMap s pt physAddr virtAddr flags

def vmmUnmap (s : Machine) (pt virtAddr : ℕ) : Except Fault Machine := archMmUnmap s pt virtAddr

def vmmIsPageFree (m : Mem) (pt virtAddr : ℕ) : Bool := archMmIsPageFree m pt virtAddr

def vmmVirtToPhys (m : Mem) (pt virtAddr : ℕ) : ℕ := archMmVirtToPhys m pt virtAddr

def vaspaceNew (s : Machine) (kernelPT : ℕ) : Except Fault (ℕ × Machine) :=
  archVaspaceNew s kernelPT

def vaspaceDestroy (s : Machine) (pt : ℕ) : Except Fault Machine := archVaspaceDestroy s pt

def vaspaceClear (s : Machine) (pt : ℕ) : Except Fault Machine := archVaspaceClear s pt

def vaspaceClone (s : Machine) (kernelPT toClone : ℕ) : Except Fault (ℕ × Machine) :=
  archVaspaceClone s kernelPT toClone

/-- Back `n` pages from `virtAddr` on with fresh frames. -/
def mapFreshPages (pt virtAddr n : ℕ) (flags : BitVec 32) (s : Machine) : Except Fault Machine :=
  forRange (fun i s => do
    let (physAddr, s) ← pmmAllocate s 1
    vmmMap s pt physAddr ((virtAddr + i * PAGE_SIZE) % 2 ^ 64) flags) 0 n s

def vmmMapRange (s : Machine) (pt physAddr virtAddr length : ℕ) (flags : BitVec 32) :
    Except Fault Machine :=
  -- the last steps of the counter wrap to 0 before they reach such a length
  if 2 ^ 64 - PAGE_SIZE < length then .error .diverges else
  forRange (fun i s => vmmMap s pt ((physAddr + i * PAGE_SIZE) % 2 ^ 64)
    ((virtAddr + i * PAGE_SIZE) % 2 ^ 64) flags) 0 ((length + (PAGE_SIZE - 1)) / PAGE_SIZE) s

def vmmUnmapRange (s : Machine) (pt virtAddr length : ℕ) : Except Fault Machine :=
  if 2 ^ 64 - PAGE_SIZE < length then .error .diverges else
  forRange (fun i s => vmmUnmap s pt ((virtAddr + i * PAGE_SIZE) % 2 ^ 64)) 0
    ((length + (PAGE_SIZE - 1)) / PAGE_SIZE) s

def vaspaceCreateArea (s : Machine) (pml4 virtAddr size : ℕ) (flags : BitVec 32) :
    Except Fault Machine :=
  let size := if size % PAGE_SIZE ≠ 0 then ALIGN_UP size PAGE_SIZE else size
  mapFreshPages pml4 virtAddr (size / PAGE_SIZE) flags s

def PROT_WRITE : BitVec 32 := 0x02
def MAP_PRIVATE : BitVec 32 := 0x01
def MAP_SHARED : BitVec 32 := 0x02
def MAP_ANONYMOUS : BitVec 32 := 0x08
def MAP_32BIT : BitVec 32 := 0x20

/-- One pass of the search loop of `sys_mmap`, on `npages` and `addr`; `.error` is the jump to
the mapping loop. -/
def mmapProbe (m : Mem) (pt length i : ℕ) (st : ℕ × ℕ) : Except ℕ (ℕ × ℕ) :=
  if vmmIsPageFree m pt i then
    let npages := st.1 + 1
    let addr := if npages = 1 then i else st.2
    if npages = length then .error addr else .ok (npages, addr)
  else .ok (0, st.2)

/-- `VMM_EXEC_DISABLE` is bit 63 and does not survive the conversion of `vmmflags` to the
32-bit parameter of `vmm_map`, so `PROT_EXEC` has no effect. -/
def mmapFlags (prot : BitVec 32) : BitVec 32 :=
  VMM_USER ||| VMM_PRESENT ||| (if prot &&& PROT_WRITE != 0 then VMM_RW else 0)

/-- The results of the two statements `ALIGN_UP(addr, PAGE_SIZE);` and
`ALIGN_UP(length, PAGE_SIZE);` are discarded: neither value is rounded. -/
def sysMmap (s : Machine) (pt : ℕ) (addr length : BitVec 64) (prot flags : BitVec 32) :
    Except Fault (ℤ × Machine) :=
  if length = 0 then .ok (-EINVAL, s)
  else if addr.toNat > VMM_USER_END then .ok (-ENOMEM, s)
  else if flags &&& MAP_SHARED != 0 then .ok (-EINVAL, s)
  else if flags &&& MAP_PRIVATE == 0 then .ok (-EINVAL, s)
  else if flags &&& MAP_ANONYMOUS == 0 then .ok (-EINVAL, s)
  else
    let addr := if addr = 0 then 0x1000 else addr.toNat
    let length := length.toNat / PAGE_SIZE
    let userEnd := if flags &&& MAP_32BIT != 0 then 0x80000000 else VMM_USER_END
    -- the loop `for(i = addr; i < userEnd; i += PAGE_SIZE)`
    let probes := (userEnd - addr + (PAGE_SIZE - 1)) / PAGE_SIZE
    match forRange (fun k => mmapProbe s.mem pt length (addr + k * PAGE_SIZE)) 0 probes (0, addr) with
    | .ok _ => .ok (-ENOMEM, s)
    | .error addr => do
      let s ← mapFreshPages pt addr length (mmapFlags prot) s
      return (addr, s)

/-- The loop of `sys_munmap` with its early `return`. -/
def munmapPages (pt : ℕ) : ℕ → ℕ → Machine → Except Fault (ℤ × Machine)
  | 0, _, s => .ok (-ENOMEM, s)
  | n + 1, addr, s =>
    let physAddr := vmmVirtToPhys s.mem pt addr
    if physAddr = 0 then .ok (-EINVAL, s)
    else do
      let s ← pmmFree s physAddr 1
      let s ← vmmUnmap s pt addr
      munmapPages pt n ((addr + PAGE_SIZE) % 2 ^ 64) s

/-- As in `sys_mmap` the length is rounded down; a completed call still returns `-ENOMEM`. -/
def sysMunmap (s : Machine) (pt : ℕ) (addr length : BitVec 64) : Except Fault (ℤ × Machine) :=
  if length = 0 then .ok (-EINVAL, s)
  else if addr.toNat > VMM_USER_END ∨ addr.toNat % PAGE_SIZE ≠ 0 then .ok (-EINVAL, s)
  else munmapPages pt (length.toNat / PAGE_SIZE) addr.toNat s

end GarnOS
