import GarnOS.Fal.Vnode
import GarnOS.Process.Table

/-! File descriptors: the tables of the processes, and what `sys_open`, `sys_close`, `sys_fork`,
`sys_exit` and `sys_waitpid` do to them. A path is given as `vnode_get_absolute_path` returns it. -/
namespace GarnOS
open Outcome

def O_RDONLY : BitVec 32 := 0
def O_WRONLY : BitVec 32 := 1
def O_RDWR : BitVec 32 := 1 <<< 1
def O_APPEND : BitVec 32 := 1 <<< 10

def PROCESS_INIT_FD : ℕ := 128
def PROCESS_MAX_FD : ℕ := 2048

structure Fd where
  file : Option ℕ
  offset : ℕ
  flags : BitVec 32
  deriving DecidableEq, Repr

def Fd.cleared : Fd := ⟨none, 0, 0⟩

structure ProcFds where
  fdTable : ℕ
  fdMax : ℕ
  deriving DecidableEq, Repr

/-- The file layer, the process list, and the processes' descriptors with the tables in the heap. -/
structure Files where
  fal : Fal
  procs : ProcTable
  fds : Objects ProcFds
  tables : Objects (List Fd)

abbrev FdKmalloc := Objects.Allocator (List Fd)

namespace Files

def proc (s : Files) (p : ℕ) : Except Fault ProcFds :=
  match s.fds.get p with
  | some x => .ok x
  | none => .error (.overrun p)

/-- `fdTable[i]`; a table that was freed is no longer an object. -/
def fd (s : Files) (t i : ℕ) : Except Fault Fd :=
  match (s.tables.get t).bind (·[i]?) with
  | some fd => .ok fd
  | none => .error (.overrun t)

def storeFd (s : Files) (t i : ℕ) (f : Fd → Fd) : Except Fault Files := do
  let fd ← s.fd t i
  return { s with tables := s.tables.set t (((s.tables.get t).getD []).set i (f fd)) }

end Files

def vnodeAllocFdTable (h : FdKmalloc) (s : Files) (size : ℕ) : ℕ × Files :=
  let t := h.alloc s.tables
  (t, { s with tables := s.tables.set t (List.replicate size .cleared) })

def vnodeReallocFdTable (h : FdKmalloc) (s : Files) (fd prevSize newSize : ℕ) :
    Except Fault (ℕ × Files) :=
  if prevSize = newSize then .ok (fd, s)
  else
    match s.tables.get fd with
    | none => .error (.overrun fd)
    | some old =>
      let newfd := h.alloc s.tables
      if old.length < prevSize then .error (.overrun fd)
      else if newSize < prevSize then .error (.overrun newfd)
      else
        let new := old.take prevSize ++ List.replicate (newSize - prevSize) .cleared
        .ok (newfd, { s with tables := (s.tables.set newfd new).free fd })

/-- `fdTable[i].file = vnode_open(path, flags, mode)`. -/
def openInto (k : Kmalloc) (s : Files) (t i : ℕ) (path : List Char) (flags mode : BitVec 32) :
    Except Fault (Option ℕ × Files) := do
  let (r, fal) ← vnodeOpen k s.fal path flags mode
  let s ← Files.storeFd { s with fal := fal } t i fun fd => { fd with file := r }
  return (r, s)

/-- The scan of `sys_open` for a slot without a file, over `n` slots from `i` on. -/
def findFdFrom (s : Files) (t : ℕ) : ℕ → ℕ → Except Fault (Option ℕ)
  | _, 0 => .ok none
  | i, n + 1 => do
    let fd ← s.fd t i
    if fd.file = none then return some i else findFdFrom s t (i + 1) n

/-- `if(flags & O_APPEND) offset = file->size; else offset = 0`. -/
def appendOffset (s : Fal) (file : ℕ) (flags : BitVec 32) : Except Fault ℕ := do
  if flags &&& O_APPEND ≠ 0 then
    let v ← s.vnode file
    return v.size
  else return 0

/-- The body of the scan at a slot without a file. `vnode_lookup` treats NULL like a path that does
not begin with a slash. The offset for `O_APPEND` is overwritten. -/
def sysOpenSlot (k : Kmalloc) (s : Files) (t i : ℕ) (absPath : Option (List Char))
    (flags mode : BitVec 32) : Except Fault (ℤ × Files) := do
  let (r, s) ← openInto k s t i (absPath.getD []) flags mode
  match r with
  | none => return (-s.fal.kerrno, s)
  | some a =>
    let offset ← appendOffset s.fal a flags
    let s ← s.storeFd t i fun fd => { fd with offset := offset }
    let s ← s.storeFd t i fun fd => { fd with offset := 0, flags := flags }
    return (i, s)

/-- How `sys_open` goes on after a pass from the label `findfd`. -/
inductive OpenPass where
  | returned (ret : ℤ) (s : Files)
  | again (s : Files)

/-- A pass from the label `findfd`. The table that `vnode_realloc_fd_table` returns is not
stored. -/
def sysOpenPass (k : Kmalloc) (h : FdKmalloc) (s : Files) (cur : ℕ) (absPath : Option (List Char))
    (flags mode : BitVec 32) : Except Fault OpenPass := do
  let p ← s.proc cur
  match ← findFdFrom s p.fdTable 0 p.fdMax with
  | some i =>
    let (ret, s) ← sysOpenSlot k s p.fdTable i absPath flags mode
    return .returned ret s
  | none =>
    if PROCESS_MAX_FD ≤ p.fdMax + 1 then return .returned (-EMFILE) s
    else
      let (_, s) ← vnodeReallocFdTable h s p.fdTable (p.fdMax + 1) ((p.fdMax + 1) * 2)
      return .again { s with fds := s.fds.set cur { p with fdMax := (p.fdMax + 1) * 2 - 1 } }

def sysOpenFrom (k : Kmalloc) (h : FdKmalloc) (cur : ℕ) (absPath : Option (List Char))
    (flags mode : BitVec 32) : ℕ → Files → Except Fault (ℤ × Files)
  | 0, _ => .error .diverges
  | fuel + 1, s => do
    match ← sysOpenPass k h s cur absPath flags mode with
    | .returned ret s => return (ret, s)
    | .again s => sysOpenFrom k h cur absPath flags mode fuel s

/-- Each pass that does not return raises the bound, so there are fewer than `PROCESS_MAX_FD`. -/
def sysOpen (k : Kmalloc) (h : FdKmalloc) (s : Files) (cur : ℕ) (absPath : Option (List Char))
    (flags mode : BitVec 32) : Except Fault (ℤ × Files) :=
  sysOpenFrom k h cur absPath flags mode PROCESS_MAX_FD s

def sysClose (s : Files) (cur : ℕ) (fd : ℤ) : Except Fault (ℤ × Files) := do
  let p ← s.proc cur
  if p.fdMax < u64 fd then return (-EBADF, s)
  else
    let slot ← s.fd p.fdTable (u64 fd)
    if slot.file = none then return (-EBADF, s)
    else
      let s ← s.storeFd p.fdTable (u64 fd) fun fd => { fd with file := none }
      return (0, s)

def countFile (s : Fal) (file : Option ℕ) (n : ℤ) : Except Fault Fal :=
  match file with
  | none => .ok s
  | some a => do
    let v ← s.vnode a
    return s.setVnode a { v with refCount := v.refCount + n }

/-- The body of the loop of `sys_fork` over the slots. -/
def forkFd (parent child i : ℕ) (s : Files) : Except Fault Files := do
  let fd ← s.fd parent i
  let s ← s.storeFd child i fun _ => fd
  let fal ← countFile s.fal fd.file 1
  return { s with fal := fal }

/-- The body of the loop of `process_free` over the slots. -/
def freeFd (t i : ℕ) (s : Files) : Except Fault Files := do
  let fd ← s.fd t i
  let fal ← countFile s.fal fd.file (-1)
  return { s with fal := fal }

def tty0 : List Char := ['/', 'd', 'e', 'v', '/', 't', 't', 'y', '0']

namespace Files

def sysFork (h : FdKmalloc) (s : Files) (cur a mainThread : ℕ) : Except Fault (ℤ × Files) := do
  let (pid, procs) ← GarnOS.sysFork s.procs cur a mainThread
  let p ← s.proc cur
  let (t, s) := vnodeAllocFdTable h s (p.fdMax + 1)
  let s ← forRange (forkFd p.fdTable t) 0 p.fdMax { s with fds := s.fds.set a ⟨t, p.fdMax⟩ }
  return (pid, { s with procs := procs })

def sysExit (s : Files) (cur : ℕ) (status : ℤ) : Except Fault Files := do
  let procs ← GarnOS.sysExit s.procs cur status
  return { s with procs := procs }

def sysWaitpid (s : Files) (cur : ℕ) (pid : ℤ) : Except Fault (WaitOutcome × Files) := do
  match ← GarnOS.sysWaitpid s.procs cur pid with
  | .reaped child pid exitStatus procs =>
    let p ← s.proc child
    let s ← forRange (freeFd p.fdTable) 0 p.fdMax s
    return (.reaped child pid exitStatus procs, { s with procs := procs, fds := s.fds.free child })
  | outcome => return (outcome, s)

/-- The descriptors that `process_create_init` sets up, for the first process at `a`. -/
def createInit (k : Kmalloc) (h : FdKmalloc) (fal : Fal) (a mainThread : ℕ) :
    Except Fault Files := do
  let procs ← processCreateInit a mainThread
  let (t, s) := vnodeAllocFdTable h ⟨fal, procs, .empty, .empty⟩ PROCESS_INIT_FD
  let s := { s with fds := s.fds.set a ⟨t, PROCESS_INIT_FD - 1⟩ }
  let s ← forRange (fun i s => do return (← openInto k s t i tty0 O_RDWR 0).2) 0 3 s
  let s ← s.storeFd t 0 fun fd => { fd with flags := O_RDONLY }
  let s ← s.storeFd t 1 fun fd => { fd with flags := O_WRONLY }
  s.storeFd t 2 fun fd => { fd with flags := O_WRONLY }

end Files

/-- A call of the process at `cur`; `sys_waitpid` by the child that it reaps. -/
inductive FileCall where
  | open (cur : ℕ) (absPath : Option (List Char))
  | close (cur : ℕ) (fd : ℤ)
  | fork (cur : ℕ)
  | exit
  | waitpid (child : ℕ)
  deriving DecidableEq

/-- The calls of the running process at `cur`. The state in which `sys_open` goes back to `findfd`
is a state of the run. -/
inductive FileStep (k : Kmalloc) (h : FdKmalloc) : Files → FileCall → Files → Prop
  | opened {s s' : Files} {caller : ProcessT} {ret : ℤ} (cur : ℕ) (absPath : Option (List Char))
      (flags mode : BitVec 32) (hcur : s.procs.procs cur = some caller)
      (hrun : caller.status = .running)
      (hcall : sysOpenPass k h s cur absPath flags mode = .ok (.returned ret s')) :
      FileStep k h s (.open cur absPath) s'
  | grew {s s' : Files} {caller : ProcessT} (cur : ℕ) (absPath : Option (List Char))
      (flags mode : BitVec 32) (hcur : s.procs.procs cur = some caller)
      (hrun : caller.status = .running)
      (hcall : sysOpenPass k h s cur absPath flags mode = .ok (.again s')) :
      FileStep k h s (.open cur absPath) s'
  | closed {s s' : Files} {caller : ProcessT} {ret : ℤ} (cur : ℕ) (fd : ℤ)
      (hcur : s.procs.procs cur = some caller) (hrun : caller.status = .running)
      (hcall : sysClose s cur fd = .ok (ret, s')) : FileStep k h s (.close cur fd) s'
  | forked {s s' : Files} {caller : ProcessT} {pid : ℤ} (cur a mainThread : ℕ)
      (hcur : s.procs.procs cur = some caller) (hrun : caller.status = .running)
      (ha : s.procs.procs a = none) (hcall : s.sysFork h cur a mainThread = .ok (pid, s')) :
      FileStep k h s (.fork cur) s'
  | exited {s s' : Files} {caller : ProcessT} (cur : ℕ) (status : ℤ)
      (hcur : s.procs.procs cur = some caller) (hrun : caller.status = .running)
      (hcall : s.sysExit cur status = .ok s') : FileStep k h s .exit s'
  | reaped {s s' : Files} {child exitStatus : ℕ} {caller : ProcessT} {pid : ℤ} {t : ProcTable}
      (cur : ℕ) (arg : ℤ) (hcur : s.procs.procs cur = some caller) (hrun : caller.status = .running)
      (hcall : s.sysWaitpid cur arg = .ok (.reaped child pid exitStatus t, s')) :
      FileStep k h s (.waitpid child) s'

end GarnOS
