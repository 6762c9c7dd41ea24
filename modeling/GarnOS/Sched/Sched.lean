import GarnOS.Ds.LinkedList

/-! The scheduler: a list of threads, the running one, and a cursor to the node of the next one.
Locks are left out, and so is the heap that the kernel stack of a destroyed thread goes back to. -/
namespace GarnOS
open Outcome

inductive Reg where
  | ds | r15 | r14 | r13 | r12 | r11 | r10 | r9 | r8
  | rdi | rsi | rbp | rbx | rdx | rcx | rax
  | intn | errCode | rip | cs | rflags | rsp | ss
  deriving DecidableEq, Repr

abbrev Frame := Reg → BitVec 64

inductive ThreadStatus where
  | ready
  | running
  | blocked
  | destroyed
  deriving DecidableEq, Repr

/-- `thread_t`; `process` is the address of its `process_t`. -/
structure Thread where
  status : ThreadStatus
  regs : Frame
  tsp : BitVec 64
  fpRegs : BitVec 4096
  kernelStack : BitVec 64
  process : ℕ

/-- What a context switch exchanges: the interrupted frame, the floating point registers, the thread
pointer, the kernel stack and the process whose page table is loaded. -/
structure Cpu where
  regs : Frame
  fpRegs : BitVec 4096
  tsp : BitVec 64
  kernelStack : BitVec 64
  vaspace : ℕ

/-- The globals of the scheduler and the threads, by address. -/
structure Sched where
  threadList : ListT
  currentThreadNode : Option ℕ
  currentThread : Option ℕ
  currentProcess : Option ℕ
  threads : ℕ → Thread

namespace Sched

def setStatus (s : Sched) (t : ℕ) (status : ThreadStatus) : Sched :=
  { s with threads := Function.update s.threads t { s.threads t with status } }

def running (s : Sched) : Except Fault ℕ :=
  match s.currentThread with
  | none => .error (.pageFault 0)
  | some t => .ok t

def select (s : Sched) (u : ℕ) (next : Option ℕ) : Sched :=
  { s with currentThread := some u
           currentThreadNode := next
           currentProcess := some (s.threads u).process }

/-- The context of the interrupted `cpu` goes into the thread `t`. -/
def store (s : Sched) (t : ℕ) (cpu : Cpu) : Sched :=
  { s with threads :=
      Function.update s.threads t { s.threads t with regs := cpu.regs, fpRegs := cpu.fpRegs } }

/-- The thread is the running one, or some node of the list holds it. -/
def Knows (s : Sched) (t : ℕ) : Prop :=
  s.currentThread = some t ∨ ∃ n, s.threadList.value n = some t

end Sched

/-- The globals after `list_create`, before the first thread is added. -/
def schedCreate (threads : ℕ → Thread) : Sched := ⟨listCreate, none, none, none, threads⟩

/-- `node` is the list node that `list_insert` allocates. -/
def schedAddThread (s : Sched) (node t : ℕ) : Except Fault Sched := do
  let s := s.setStatus t .ready
  let l ← listInsert s.threadList node t
  return { s with threadList := l
                  currentThread := s.currentThread.or (some t)
                  currentProcess := s.currentProcess.or (some (s.threads t).process)
                  currentThreadNode := s.currentThreadNode.or l.head }

/-- `sched_init`: the list and the thread `t` of the first process, for which the caller filled in
`th`. -/
def schedInit (threads : ℕ → Thread) (th : Thread) (node t : ℕ) : Except Fault Sched :=
  schedAddThread (schedCreate (Function.update threads t th)) node t

def schedRemoveThread (s : Sched) (t : ℕ) : Sched := s.setStatus t .destroyed

/-- A destroyed thread leaves the list, any other one becomes ready again. -/
def schedPutBack (s : Sched) : Except Fault Sched := do
  let t ← s.running
  if (s.threads t).status = .destroyed then
    let l ← listRemove s.threadList t
    return { s with threadList := l.getD s.threadList }
  else return s.setStatus t .ready

/-- The thread at the cursor becomes the running one. -/
def schedAdvance (s : Sched) : Except Fault Sched := do
  let n ← s.threadList.node (s.currentThreadNode.or s.threadList.head)
  return s.select n.value n.next

/-- The loop from the label `checkready` on, at most `fuel` times. -/
def schedCheckReady : ℕ → Sched → Except Fault Sched
  | 0, _ => .error .diverges
  | fuel + 1, s => do
    let s ← schedPutBack s
    let s ← schedAdvance s
    let t ← s.running
    if (s.threads t).status ≠ .ready then schedCheckReady fuel s else return s

def schedGetNextThread (s : Sched) : Except Fault Sched := do
  let first ← s.threadList.node s.threadList.head
  if first.next = none then return s
  else schedCheckReady (s.threadList.nodeCount + 1) s

def archStoreContext (s : Sched) (cpu : Cpu) : Except Fault Sched := do
  let t ← s.running
  return s.store t cpu

def archRestoreContext (s : Sched) (cpu : Cpu) : Except Fault Cpu := do
  let t ← s.running
  let th := s.threads t
  return { cpu with regs := th.regs, fpRegs := th.fpRegs, tsp := th.tsp }

/-- `sched_preempt` for the interrupted `cpu`; it returns to the frame of the resulting one. -/
def schedPreempt (s : Sched) (cpu : Cpu) : Except Fault (Sched × Cpu) := do
  if s.threadList.head = none then return (s, cpu)
  else
    let s ← archStoreContext s cpu
    let s ← schedGetNextThread s
    let t ← s.running
    let cpu ← archRestoreContext s { cpu with kernelStack := (s.threads t).kernelStack }
    return (s, { cpu with vaspace := (s.threads t).process })

/-- What choosing the next thread can do: nodes only leave the list, statuses only become ready,
and a thread that starts to run was in the list. -/
structure Switched (s s' : Sched) : Prop where
  values : ∀ n v, s'.threadList.value n = some v → s.threadList.value n = some v
  current : s'.currentThread = s.currentThread ∧ s'.currentProcess = s.currentProcess ∨
    ∃ t n, s.threadList.value n = some t ∧ s'.currentThread = some t ∧
      s'.currentProcess = some (s.threads t).process
  status : ∀ u, s'.threads u = s.threads u ∨
    (s.threads u).status ≠ .destroyed ∧ s'.threads u = { s.threads u with status := .ready }

section Frames
variable {s s' s'' : Sched} {cpu cpu' : Cpu} {t u : ℕ}

@[simp] theorem running_of (h : s.currentThread = some t) : s.running = .ok t := by
  simp [Sched.running, h]

theorem running_eq_ok : s.running = .ok t ↔ s.currentThread = some t := by
  unfold Sched.running
  split <;> simp_all

@[simp] theorem setStatus_self (status : ThreadStatus) :
    (s.setStatus t status).threads t = { s.threads t with status } := Function.update_self ..

theorem setStatus_of_ne (status : ThreadStatus) (h : u ≠ t) :
    (s.setStatus t status).threads u = s.threads u := Function.update_of_ne h ..

theorem Switched.refl (s : Sched) : Switched s s :=
  ⟨fun _ _ h => h, .inl ⟨rfl, rfl⟩, fun _ => .inl rfl⟩

section
variable (h : Switched s s')
include h

theorem Switched.process_eq (u : ℕ) : (s'.threads u).process = (s.threads u).process := by
  rcases h.status u with hu | ⟨-, hu⟩
  · rw [hu]
  · rw [hu]

theorem Switched.regs_eq (u : ℕ) : (s'.threads u).regs = (s.threads u).regs := by
  rcases h.status u with hu | ⟨-, hu⟩
  · rw [hu]
  · rw [hu]

theorem Switched.destroyed_iff (u : ℕ) :
    (s'.threads u).status = .destroyed ↔ (s.threads u).status = .destroyed := by
  rcases h.status u with hu | ⟨hne, hu⟩
  · rw [hu]
  · simp [hu, hne]

theorem Switched.trans (h' : Switched s' s'') : Switched s s'' := by
  constructor
  · exact fun n v hv => h.values n v (h'.values n v hv)
  · rcases h'.current with ⟨ht, hp⟩ | ⟨t, n, hn, ht, hp⟩
    · rw [ht, hp]
      exact h.current
    · exact .inr ⟨t, n, h.values n t hn, ht, by rw [hp, h.process_eq]⟩
  · intro u
    rcases h'.status u with hu | ⟨hne, hu⟩
    · rw [hu]
      exact h.status u
    · have hne' : (s.threads u).status ≠ .destroyed := fun hd => hne ((h.destroyed_iff u).mpr hd)
      refine .inr ⟨hne', ?_⟩
      rcases h.status u with hu' | ⟨-, hu'⟩
      all_goals rw [hu, hu']

end

theorem schedPutBack_switched (h : schedPutBack s = .ok s') : Switched s s' := by
  obtain ⟨t, -, h⟩ := bind_eq_ok.mp h
  split_ifs at h with hd
  · obtain ⟨l, hl, h⟩ := bind_eq_ok.mp h
    cases h
    refine ⟨?_, .inl ⟨rfl, rfl⟩, fun _ => .inl rfl⟩
    intro n v hv
    cases l with
    | none => exact hv
    | some l => exact listRemove_value hl hv
  · cases h
    refine ⟨fun _ _ hv => hv, .inl ⟨rfl, rfl⟩, fun u => ?_⟩
    by_cases hu : u = t
    · subst hu
      exact .inr ⟨hd, setStatus_self _⟩
    · exact .inl (setStatus_of_ne _ hu)

theorem schedAdvance_switched (h : schedAdvance s = .ok s') : Switched s s' := by
  obtain ⟨n, hn, h⟩ := bind_eq_ok.mp h
  cases h
  obtain ⟨a, ha⟩ := ListT.value_of_node hn
  exact ⟨fun _ _ hv => hv, .inr ⟨n.value, a, ha, rfl, rfl⟩, fun _ => .inl rfl⟩

theorem schedCheckReady_switched {fuel : ℕ} (h : schedCheckReady fuel s = .ok s') :
    Switched s s' := by
  induction fuel generalizing s with
  | zero => cases h
  | succ fuel ih =>
    obtain ⟨s1, h1, h⟩ := bind_eq_ok.mp h
    obtain ⟨s2, h2, h⟩ := bind_eq_ok.mp h
    obtain ⟨t, -, h⟩ := bind_eq_ok.mp h
    have h12 := (schedPutBack_switched h1).trans (schedAdvance_switched h2)
    split_ifs at h with hready
    · exact h12.trans (ih h)
    · cases h
      exact h12

theorem schedGetNextThread_switched (h : schedGetNextThread s = .ok s') : Switched s s' := by
  obtain ⟨first, -, h⟩ := bind_eq_ok.mp h
  split_ifs at h with hone
  · cases h
    exact Switched.refl s
  · exact schedCheckReady_switched h

theorem schedAddThread_spec {node : ℕ} (h : schedAddThread s node t = .ok s') :
    s'.threads = (s.setStatus t .ready).threads ∧ s'.currentThread = s.currentThread.or (some t) ∧
      s'.currentProcess = s.currentProcess.or (some (s.threads t).process) ∧
      ∀ n v, s'.threadList.value n = some v → v = t ∨ s.threadList.value n = some v := by
  obtain ⟨l, hl, h⟩ := bind_eq_ok.mp h
  cases h
  refine ⟨rfl, rfl, ?_, fun n v hv => (listInsert_value hl hv).imp_left And.right⟩
  simp [Sched.setStatus]

/-- A preemption either finds no threads, or stores the frame, switches and restores. -/
theorem schedPreempt_cases (h : schedPreempt s cpu = .ok (s', cpu')) :
    s.threadList.head = none ∧ s' = s ∧ cpu' = cpu ∨
    ∃ t u, s.currentThread = some t ∧ Switched (s.store t cpu) s' ∧ s'.currentThread = some u ∧
      cpu'.regs = (s'.threads u).regs := by
  unfold schedPreempt at h
  split_ifs at h with hnone
  · cases h
    exact .inl ⟨hnone, rfl, rfl⟩
  · obtain ⟨mid, hmid, h⟩ := bind_eq_ok.mp h
    obtain ⟨s1, hnext, h⟩ := bind_eq_ok.mp h
    obtain ⟨u, hu, h⟩ := bind_eq_ok.mp h
    obtain ⟨cpu1, hrest, h⟩ := bind_eq_ok.mp h
    cases h
    obtain ⟨u', hu', hrest⟩ := bind_eq_ok.mp hrest
    cases hu.symm.trans hu'
    cases hrest
    obtain ⟨t, ht, hmid⟩ := bind_eq_ok.mp hmid
    cases hmid
    exact .inr ⟨t, u, running_eq_ok.mp ht, schedGetNextThread_switched hnext,
      running_eq_ok.mp hu, rfl⟩

end Frames

end GarnOS
