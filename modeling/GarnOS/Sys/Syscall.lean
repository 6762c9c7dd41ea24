import GarnOS.Sched.Fork
import GarnOS.Paging.Vaspace

/-! System calls: the two tables of handlers, the entry that calls them, and the dispatch it is
meant to do. A handler is any function of the interrupted frame, six arguments and the rest of the
kernel; handlers that do not return are the ones that end in a `Fault`. -/
namespace GarnOS
open Outcome ByteMemory

def SYSCALL_MAX : ℕ := 255
def ENOSYS : ℤ := 88

/-- `syscallTable` and `gsysSyscallTable`, over the addresses of handlers. -/
structure SyscallTables (H : Type) where
  posix : Fin SYSCALL_MAX → Option H
  gsys : Fin SYSCALL_MAX → Option H

/-- What the entry reads and writes: the frame on the kernel stack, the threads, and whatever
else the handlers work on. -/
structure Trap (κ : Type) where
  regs : Frame
  sched : Sched
  kernel : κ

abbrev HandlerCode (H κ : Type) :=
  H → Trap κ → List (BitVec 64) → Except Fault (BitVec 64 × Trap κ)

section Dispatch
variable {H κ : Type}

/-- An index outside the table names no slot of it. -/
def slot (table : Fin SYSCALL_MAX → Option H) (num : ℕ) : Except Fault (Option H) :=
  if h : num < SYSCALL_MAX then .ok (table ⟨num, h⟩) else .error (.overrun num)

def setSlot (table : Fin SYSCALL_MAX → Option H) (num : ℕ) (addr : H) :
    Except Fault (Fin SYSCALL_MAX → Option H) :=
  if h : num < SYSCALL_MAX then .ok (Function.update table ⟨num, h⟩ (some addr))
  else .error (.overrun num)

def syscallRegister (t : SyscallTables H) (num : ℕ) (addr : H) :
    Except Fault (SyscallTables H) := do
  let posix ← setSlot t.posix num addr
  return { t with posix }

def gsysSyscallRegister (t : SyscallTables H) (num : ℕ) (addr : H) :
    Except Fault (SyscallTables H) := do
  let gsys ← setSlot t.gsys num addr
  return { t with gsys }

/-- The return type `int` keeps the low half of `rax`. -/
def archSyscallNumber (regs : Frame) : BitVec 32 := (regs .rax).setWidth 32

def archSyscallReturn (s : Trap κ) (value : BitVec 64) : Trap κ :=
  { s with regs := Function.update s.regs .rax value }

def archSyscallArgs (regs : Frame) : List (BitVec 64) :=
  [regs .rdi, regs .rsi, regs .rdx, regs .r10, regs .r8, regs .r9]

/-- What a caller sees of a function called through a pointer to a function returning `int`. -/
def asInt (value : BitVec 64) : BitVec 64 := (value.setWidth 32).signExtend 64

/-- The slot that `syscall_handler` reads for a number. -/
def slotOf (t : SyscallTables H) (number : BitVec 32) : Except Fault (Option H) :=
  if number.toNat < 0x80000000 then slot t.posix number.toNat
  else slot t.gsys (number - 0x80000000#32).toNat

def saveCaller (s : Trap κ) : Except Fault (Trap κ) := do
  let callerThread ← s.sched.running
  return { s with sched := setRegs s.sched callerThread s.regs }

/-- `result` is not initialised when no handler is found, and it is stored all the same: `junk` is
what the variable happens to hold. The first component records the call that was made. -/
def syscallHandler (t : SyscallTables H) (code : HandlerCode H κ) (junk : BitVec 64)
    (s : Trap κ) : Except Fault (Option (H × List (BitVec 64)) × Trap κ) := do
  let s ← saveCaller s
  match ← slotOf t (archSyscallNumber s.regs) with
  | none =>
    let s := archSyscallReturn s (BitVec.ofInt 64 (-ENOSYS))
    return (none, archSyscallReturn s junk)
  | some syscall =>
    let args := archSyscallArgs s.regs
    let (result, s) ← code syscall s args
    return (some (syscall, args), archSyscallReturn s (asInt result))

def registered (t : SyscallTables H) (number : BitVec 64) : Option H :=
  if number.toNat < 0x80000000 then
    if h : number.toNat < SYSCALL_MAX then t.posix ⟨number.toNat, h⟩ else none
  else if h : number.toNat - 0x80000000 < SYSCALL_MAX then t.gsys ⟨number.toNat - 0x80000000, h⟩
  else none

/-- Dispatch as the callers of the kernel expect it: the registered handler gets the six argument
registers and its whole result is returned, and a number without a handler is `-ENOSYS`. -/
def faithfulDispatch (t : SyscallTables H) (code : HandlerCode H κ) (s : Trap κ) :
    Except Fault (Option (H × List (BitVec 64)) × Trap κ) := do
  let s ← saveCaller s
  match registered t (s.regs .rax) with
  | none => return (none, archSyscallReturn s (BitVec.ofInt 64 (-ENOSYS)))
  | some syscall =>
    let args := archSyscallArgs s.regs
    let (result, s) ← code syscall s args
    return (some (syscall, args), archSyscallReturn s result)

theorem archSyscallReturn_inj {s : Trap κ} {v w : BitVec 64} :
    archSyscallReturn s v = archSyscallReturn s w ↔ v = w := by
  constructor
  · intro h
    have hrax := congrFun (congrArg Trap.regs h) Reg.rax
    simpa only [archSyscallReturn, Function.update_self] using hrax
  · rintro rfl
    rfl

@[simp] theorem archSyscallReturn_twice (s : Trap κ) (v w : BitVec 64) :
    archSyscallReturn (archSyscallReturn s v) w = archSyscallReturn s w := by
  simp [archSyscallReturn]

theorem saveCaller_regs {s s' : Trap κ} (h : saveCaller s = .ok s') : s'.regs = s.regs := by
  simp only [saveCaller, bind_eq_ok] at h
  obtain ⟨c, -, h⟩ := h
  cases h
  rfl

theorem slot_eq_ok {table : Fin SYSCALL_MAX → Option H} {num : ℕ} {o : Option H} :
    slot table num = .ok o ↔ ∃ h : num < SYSCALL_MAX, table ⟨num, h⟩ = o := by
  unfold slot
  split
  next h => simp [h]
  next h => simp [h]

/-- A number with a handler fits 32 bits, so the truncated number reads the same slot. -/
theorem slotOf_registered {t : SyscallTables H} {number : BitVec 64} {syscall : H}
    (h : registered t number = some syscall) :
    slotOf t (number.setWidth 32) = .ok (some syscall) := by
  have hnum : (number.setWidth 32).toNat = number.toNat % 2 ^ 32 := BitVec.toNat_setWidth _ _
  unfold registered at h
  split at h
  next hlow =>
    split at h
    next hlt =>
      have heq : (number.setWidth 32).toNat = number.toNat := by omega
      simp only [slotOf, heq, hlow, if_true]
      exact slot_eq_ok.mpr ⟨hlt, h⟩
    next => cases h
  next hhigh =>
    split at h
    next hlt =>
      have hlt' : number.toNat - 0x80000000 < 255 := hlt
      have heq : (number.setWidth 32).toNat = number.toNat := by omega
      have hidx : (number.setWidth 32 - 0x80000000#32).toNat = number.toNat - 0x80000000 := by
        rw [BitVec.toNat_sub, heq]
        simp only [BitVec.toNat_ofNat]
        omega
      rw [slotOf, if_neg (by omega), hidx]
      exact slot_eq_ok.mpr ⟨hlt, h⟩
    next => cases h

/-- When the entry does what is expected of it: a registered handler returns a value that survives
the pointer type, and a number without a handler reads an empty slot of its table while the
uninitialised `result` happens to hold `-ENOSYS`. -/
def DispatchOk (t : SyscallTables H) (code : HandlerCode H κ) (junk : BitVec 64)
    (s : Trap κ) : Prop :=
  match registered t (s.regs .rax) with
  | some syscall => ∀ s₀ v s₁, saveCaller s = .ok s₀ →
      code syscall s₀ (archSyscallArgs s.regs) = .ok (v, s₁) → asInt v = v
  | none => slotOf t ((s.regs .rax).setWidth 32) = .ok none ∧ junk = BitVec.ofInt 64 (-ENOSYS)

/-- For every content of the tables, every handler code and all registers. -/
theorem syscallHandler_faithful_iff (t : SyscallTables H) (code : HandlerCode H κ)
    (junk : BitVec 64) (s : Trap κ) (hs : s.sched.currentThread ≠ none) :
    syscallHandler t code junk s = faithfulDispatch t code s ↔ DispatchOk t code junk s := by
  obtain ⟨c, hc⟩ := Option.ne_none_iff_exists'.mp hs
  obtain ⟨s₀, h₀⟩ : ∃ s₀, saveCaller s = .ok s₀ := by
    refine ⟨{ s with sched := setRegs s.sched c s.regs }, ?_⟩
    simp only [saveCaller, Sched.running, hc]
    rfl
  have hregs := saveCaller_regs h₀
  unfold syscallHandler faithfulDispatch DispatchOk
  simp only [h₀, ok_bind, hregs, archSyscallNumber]
  cases hreg : registered t (s.regs .rax) with
  | some syscall =>
    simp only [slotOf_registered hreg, ok_bind]
    cases hcall : code syscall s₀ (archSyscallArgs s.regs) with
    | error e =>
      simp only [error_bind, true_iff]
      intro s₀' w s₁' hs₀' hw
      cases hs₀'
      cases hcall.symm.trans hw
    | ok r =>
      obtain ⟨v, s₁⟩ := r
      simp only [ok_bind]
      constructor
      · intro h s₀' w s₁' hs₀' hw
        cases hs₀'
        cases hcall.symm.trans hw
        exact archSyscallReturn_inj.mp (Prod.mk.inj (Except.ok.inj h)).2
      · intro h
        rw [h s₀ v s₁ rfl hcall]
  | none =>
    cases hslot : slotOf t ((s.regs .rax).setWidth 32) with
    | error e =>
      constructor
      · intro h
        cases h
      · intro h
        cases h.1
    | ok o =>
      cases o with
      | none =>
        simp only [ok_bind, archSyscallReturn_twice, true_and]
        constructor
        · intro h
          exact archSyscallReturn_inj.mp (Prod.mk.inj (Except.ok.inj h)).2
        · intro h
          rw [h]
      | some syscall =>
        simp only [ok_bind]
        -- a handler runs for a number whose low half is registered
        constructor
        · intro h
          cases hcall : code syscall s₀ (archSyscallArgs s.regs) with
          | error e =>
            rw [hcall] at h
            cases h
          | ok r =>
            rw [hcall] at h
            exact absurd (Prod.mk.inj (Except.ok.inj h)).1 (by simp)
        · intro h
          exact absurd (Except.ok.inj h.1) (by simp)

end Dispatch

inductive Syscall where
  | sysRead | sysWrite | sysOpen | sysClose | sysWaitpid | sysMmap | sysMunmap | sysFork
  | sysExecve | sysExit | sysUname | sysGetdents | sysGetcwd | sysChdir | sysSync | sysSetTsp
  deriving DecidableEq, Repr

def syscallInit : Except Fault (SyscallTables Syscall) := do
  let t := ⟨fun _ => none, fun _ => none⟩
  let t ← syscallRegister t 0 .sysRead
  let t ← syscallRegister t 1 .sysWrite
  let t ← syscallRegister t 2 .sysOpen
  let t ← syscallRegister t 3 .sysClose
  let t ← syscallRegister t 7 .sysWaitpid
  let t ← syscallRegister t 9 .sysMmap
  let t ← syscallRegister t 11 .sysMunmap
  let t ← syscallRegister t 57 .sysFork
  let t ← syscallRegister t 59 .sysExecve
  let t ← syscallRegister t 60 .sysExit
  let t ← syscallRegister t 63 .sysUname
  let t ← syscallRegister t 78 .sysGetdents
  let t ← syscallRegister t 79 .sysGetcwd
  let t ← syscallRegister t 80 .sysChdir
  let t ← syscallRegister t 162 .sysSync
  gsysSyscallRegister t (0x80000000 - 0x80000000) .sysSetTsp

/-- Handlers over physical memory: `sys_mmap` for the process whose page table is frame 1, every
other call returns 0. -/
def mmapOnly : HandlerCode Syscall Machine
  | .sysMmap, s, [addr, length, prot, flags, _, _] => do
    let (value, m) ← sysMmap s.kernel 1 addr length (prot.setWidth 32) (flags.setWidth 32)
    return (BitVec.ofInt 64 value, { s with kernel := m })
  | _, s, _ => .ok (0, s)

/-- Frames 1 to 4 are the page tables on the way to the address 4 GiB; frame 5 is free. -/
def mmapMachine : Machine where
  mem a := match a with
    | 0x1000 => 0x03 | 0x1001 => 0x20
    | 0x2020 => 0x03 | 0x2021 => 0x30
    | 0x3000 => 0x03 | 0x3001 => 0x40
    | _ => 0
  pmm := ⟨[0b11111011], 7, 1, by decide⟩

/-- Thread 0 runs and traps with the given registers. -/
def trapOf (regs : Frame) : Trap Machine where
  regs := regs
  sched := ⟨listCreate, none, some 0, some 0, fun _ => sampleThread⟩
  kernel := mmapMachine

/-- `mmap(0x100000000, 0x1000, PROT_WRITE, MAP_PRIVATE | MAP_ANONYMOUS, 0, 0)`. -/
def mmapFrame : Frame
  | .rax => 9
  | .rdi => 0x100000000
  | .rsi => 0x1000
  | .rdx => 2
  | .r10 => 9
  | _ => 0

def numbered (number : BitVec 64) : Frame
  | .rax => number
  | _ => 0

/-- The address 4 GiB comes back as 0, the empty slot 10 returns the uninitialised `result`, and the
number 255 reads past the end of the table. -/
theorem syscallHandler_unfaithful : ∃ t, syscallInit = .ok t ∧
    (∃ c s, faithfulDispatch t mmapOnly (trapOf mmapFrame) = .ok (c, s) ∧
      s.regs .rax = 0x100000000) ∧
    (∃ c s, syscallHandler t mmapOnly 0 (trapOf mmapFrame) = .ok (c, s) ∧ s.regs .rax = 0) ∧
    (∃ s, syscallHandler t mmapOnly 0 (trapOf (numbered 10)) = .ok (none, s) ∧
      s.regs .rax = 0) ∧
    syscallHandler t mmapOnly 0 (trapOf (numbered 255)) = .error (.overrun 255) := by
  have hcalls : Post syscallInit (fun t =>
      Post (faithfulDispatch t mmapOnly (trapOf mmapFrame))
        (fun r => r.2.regs .rax = 0x100000000) (fun _ => False) ∧
      Post (syscallHandler t mmapOnly 0 (trapOf mmapFrame))
        (fun r => r.2.regs .rax = 0) (fun _ => False) ∧
      Post (syscallHandler t mmapOnly 0 (trapOf (numbered 10)))
        (fun r => r.1 = none ∧ r.2.regs .rax = 0) (fun _ => False) ∧
      Post (syscallHandler t mmapOnly 0 (trapOf (numbered 255)))
        (fun _ => False) (fun e => e = .overrun 255)) fun _ => False := by
    decide +kernel
  obtain ⟨t, hinit, hdispatch, hhandler, hempty, hbeyond⟩ := hcalls.returns
  obtain ⟨⟨c, s⟩, hcall, hrax⟩ := hdispatch.returns
  obtain ⟨⟨c', s'⟩, hcall', hrax'⟩ := hhandler.returns
  obtain ⟨⟨_, s₁⟩, hnone, rfl, hrax₁⟩ := hempty.returns
  obtain ⟨_, hover, rfl⟩ := hbeyond.fails
  exact ⟨t, hinit, ⟨c, s, hcall, hrax⟩, ⟨c', s', hcall', hrax'⟩, ⟨s₁, hnone, hrax₁⟩, hover⟩

/-- `close(0)` with a handler that returns 0. -/
theorem syscallHandler_faithful_close : ∃ t, syscallInit = .ok t ∧
    syscallHandler t mmapOnly 5 (trapOf (numbered 3)) =
      faithfulDispatch t mmapOnly (trapOf (numbered 3)) := by
  refine ⟨_, rfl, (syscallHandler_faithful_iff _ mmapOnly 5 (trapOf (numbered 3)) ?_).mpr ?_⟩
  · exact Option.some_ne_none 0
  · intro s₀ v s₁ _ hcall
    obtain rfl := (Prod.mk.inj (Except.ok.inj hcall)).1
    decide

end GarnOS
