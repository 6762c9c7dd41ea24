import GarnOS.Library.Chain
import GarnOS.Mem.Memutil

/-! The process list, and what `sys_fork`, `sys_exit` and `sys_waitpid` do to it. Address spaces,
file descriptors, names and threads are modelled elsewhere. -/
namespace GarnOS
open Chain Outcome

inductive ProcessStatus where
  | running
  | zombie
  deriving DecidableEq, Repr

/-- The fields of `process_t` that the process list and `sys_waitpid` use. -/
structure ProcessT where
  pid : ℤ
  exitStatus : ℕ
  status : ProcessStatus
  mainThread : ℕ
  parent : Option ℕ
  next : Option ℕ
  deriving DecidableEq, Repr

/-- The allocated processes, by address, with the globals of `process.c`; `nextPid` is the counter
of `_process_gen_pid`. -/
structure ProcTable where
  procs : ℕ → Option ProcessT
  processList : Option ℕ
  processListLast : Option ℕ
  initProc : Option ℕ
  nextPid : ℤ

namespace ProcTable

def proc (t : ProcTable) : Option ℕ → Except Fault ProcessT
  | none => .error (.pageFault 0)
  | some a =>
    match t.procs a with
    | some p => .ok p
    | none => .error (.overrun a)

def next (t : ProcTable) (a : ℕ) : Option ℕ := (t.procs a).bind ProcessT.next

def set (t : ProcTable) (a : ℕ) (p : ProcessT) : ProcTable :=
  { t with procs := Function.update t.procs a (some p) }

/-- A bound for the loops over the list, which has fewer processes than pids were given out. -/
def fuel (t : ProcTable) : ℕ := t.nextPid.toNat

end ProcTable

/-- `pid_t` is `int`. The overflow of its increment is undefined; the sanitizer of the debug build
panics. -/
def processGenPid (t : ProcTable) : Except Fault (ℤ × ProcTable) :=
  if t.nextPid = 2 ^ 31 - 1 then
    .error (.panic "Add overflow (file: %s, line: %u, column: %u)" "ubsan" [])
  else .ok (t.nextPid, { t with nextPid := t.nextPid + 1 })

/-- The list with the first process, at the address `a`. -/
def processCreateInit (a mainThread : ℕ) : Except Fault ProcTable := do
  let (pid, t) ← processGenPid ⟨fun _ => none, none, none, none, 1⟩
  let t := t.set a ⟨pid, 0, .running, mainThread, none, none⟩
  return { t with processList := some a, processListLast := some a, initProc := some a }

/-- `cur` is the running process and `a` the address of the new one. -/
def sysFork (t : ProcTable) (cur a mainThread : ℕ) : Except Fault (ℤ × ProcTable) := do
  let (pid, t) ← processGenPid t
  let t := t.set a ⟨pid, 0, .running, mainThread, some cur, none⟩
  let last ← t.proc t.processListLast
  let t := match t.processListLast with
    | none => t
    | some l => t.set l { last with next := some a }
  return (pid, { t with processListLast := some a })

/-- The loop that looks for `a` in the list from `node` on; it gives the process before it. -/
def processFindFrom (t : ProcTable) (a : ℕ) : ℕ → Option ℕ → Option ℕ →
    Except Fault (Option (Option ℕ))
  | 0, _, _ => .error .diverges
  | _ + 1, _, none => .ok none
  | fuel + 1, prev, some b =>
    if b = a then .ok (some prev)
    else do
      let p ← t.proc (some b)
      processFindFrom t a fuel (some b) p.next

def processTerminate (t : ProcTable) (a : ℕ) : Except Fault ProcTable := do
  match ← processFindFrom t a t.fuel none t.processList with
  | none => return t
  | some _ =>
    let p ← t.proc (some a)
    return t.set a { p with status := .zombie }

def exitCode (status : ℤ) : ℕ := ((status % 256).toNat <<< 8) &&& 0xFF00

def sysExit (t : ProcTable) (cur : ℕ) (status : ℤ) : Except Fault ProcTable := do
  let p ← t.proc (some cur)
  processTerminate (t.set cur { p with exitStatus := exitCode status }) cur

/-- The loop that gives the children of `a` to the first process. -/
def reparentFrom (a : ℕ) : ℕ → ProcTable → Option ℕ → Except Fault ProcTable
  | 0, _, _ => .error .diverges
  | _ + 1, t, none => .ok t
  | fuel + 1, t, some c => do
    let p ← t.proc (some c)
    let t := if p.parent = some a then t.set c { p with parent := t.initProc } else t
    reparentFrom a fuel t p.next

/-- The stores of `process_free` that take `a` out of the list, `prev` being the process before. -/
def processUnlink (t : ProcTable) (prev : Option ℕ) (a : ℕ) (p : ProcessT) :
    Except Fault ProcTable := do
  let last := if t.processListLast = some a then prev else t.processListLast
  let head := if t.processList = some a then p.next else t.processList
  let linked ← match prev with
    | none => pure t
    | some b => do
      let q ← t.proc prev
      pure (t.set b { q with next := p.next })
  return { linked with processListLast := last, processList := head }

def processFree (t : ProcTable) (a : ℕ) : Except Fault ProcTable := do
  match ← processFindFrom t a t.fuel none t.processList with
  | none => return t
  | some prev =>
    let p ← t.proc (some a)
    let t ← processUnlink t prev a p
    let t ← reparentFrom a t.fuel t t.processList
    return { t with procs := Function.update t.procs a none }

def waitpidScanFrom (t : ProcTable) (cur : ℕ) (pid : ℤ) : ℕ → Option ℕ → Except Fault (Option ℕ)
  | 0, _ => .error .diverges
  | _ + 1, none => .ok none
  | fuel + 1, some a => do
    let p ← t.proc (some a)
    if p.status ≠ .zombie ∨ p.parent ≠ some cur ∨ (0 < pid ∧ p.pid ≠ pid) then
      waitpidScanFrom t cur pid fuel p.next
    else return some a

def waitpidScan (t : ProcTable) (cur : ℕ) (pid : ℤ) : Except Fault (Option ℕ) :=
  waitpidScanFrom t cur pid t.fuel t.processList

/-- What one pass of `sys_waitpid` over the list ends with: an error, no child to reap yet, or the
reaped child with its pid and its exit status. -/
inductive WaitOutcome where
  | enosys
  | waits
  | reaped (child : ℕ) (pid : ℤ) (exitStatus : ℕ) (t : ProcTable)

def sysWaitpid (t : ProcTable) (cur : ℕ) (pid : ℤ) : Except Fault WaitOutcome := do
  if pid < -1 ∨ pid = 0 then return .enosys
  else
    match ← waitpidScan t cur pid with
    | none => return .waits
    | some a =>
      let p ← t.proc (some a)
      let t ← processFree t a
      return .reaped a p.pid p.exitStatus t

end GarnOS
