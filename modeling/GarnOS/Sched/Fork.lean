import GarnOS.Sched.Cursor

/-! The register state of a forked thread, with timer interrupts at any point of `sys_fork` from the
copy of the frame in `syscall_handler` on. `sched_add_thread` is one step. -/
namespace GarnOS
open Function Outcome Option Relation

def frameRegs : List Reg :=
  [.ds, .r15, .r14, .r13, .r12, .r11, .r10, .r9, .r8, .rdi, .rsi, .rbp, .rbx, .rdx, .rcx, .rax,
    .intn, .errCode, .rip, .cs, .rflags, .rsp, .ss]

theorem mem_frameRegs (r : Reg) : r ∈ frameRegs := by
  cases r <;> decide

/-- Where the parent is: `k` registers are copied to the child, all of the thread is filled in, the
child is in the thread list, `sys_fork` has stored 0 in its `rax`. -/
inductive ForkPoint where
  | copying (k : ℕ)
  | copied
  | added
  | returned
  deriving DecidableEq

/-- `resumed` is the first frame that the child was resumed with. -/
structure Forking where
  sched : Sched
  point : ForkPoint
  resumed : Option Frame

def setRegs (s : Sched) (t : ℕ) (f : Frame) : Sched :=
  { s with threads := update s.threads t { s.threads t with regs := f } }

/-- One register of the `memcpy` from the thread `p` to the thread `c`. -/
def copyReg (p c : ℕ) (s : Sched) (r : Reg) : Sched :=
  setRegs s c (update (s.threads c).regs r ((s.threads p).regs r))

def forkThread (s : Sched) (p c : ℕ) (kernelStack : BitVec 64) (newProcess : ℕ) : Sched :=
  let parent := s.threads p
  let child := { s.threads c with fpRegs := parent.fpRegs, tsp := parent.tsp,
                                  kernelStack := kernelStack, status := .ready,
                                  process := newProcess }
  { s with threads := update s.threads c child }

/-- `syscall_handler` copies the user frame to the calling thread, and interrupts are enabled. -/
def syscallEntry (s : Sched) (p : ℕ) (f : Frame) : Forking := ⟨setRegs s p f, .copying 0, none⟩

inductive ForkEvent where
  | program
  | preempt
  deriving DecidableEq

/-- The steps of the parent `p` that creates the thread `c`, of the other threads, and of the
timer. -/
inductive ForkStep (p c : ℕ) : Forking → ForkEvent → Forking → Prop where
  | copy {s : Forking} {k : ℕ} {r : Reg} (hcur : s.sched.currentThread = some p)
      (hpoint : s.point = .copying k) (hk : frameRegs[k]? = some r) :
      ForkStep p c s .program { s with sched := copyReg p c s.sched r, point := .copying (k + 1) }
  | fill {s : Forking} (kernelStack : BitVec 64) (newProcess : ℕ)
      (hcur : s.sched.currentThread = some p) (hpoint : s.point = .copying frameRegs.length) :
      ForkStep p c s .program
        { s with sched := forkThread s.sched p c kernelStack newProcess, point := .copied }
  | add {s : Forking} {sched' : Sched} {node : ℕ} (hcur : s.sched.currentThread = some p)
      (hpoint : s.point = .copied) (hnode : s.sched.threadList.nodes node = none)
      (hcall : schedAddThread s.sched node c = .ok sched') :
      ForkStep p c s .program { s with sched := sched', point := .added }
  | zero {s : Forking} (hcur : s.sched.currentThread = some p) (hpoint : s.point = .added) :
      ForkStep p c s .program { s with
        sched := setRegs s.sched c (update (s.sched.threads c).regs .rax 0)
        point := .returned }
  | preempt {s : Forking} {sched' : Sched} (cpu cpu' : Cpu)
      (hcall : schedPreempt s.sched cpu = .ok (sched', cpu')) :
      ForkStep p c s .preempt { s with
        sched := sched'
        resumed := if sched'.currentThread = some c then s.resumed.or (some cpu'.regs)
          else s.resumed }
  | otherRegs {s : Forking} {u : ℕ} (f : Frame) (hcur : s.sched.currentThread = some u)
      (hu : u ≠ p ∨ s.point = .returned) :
      ForkStep p c s .program { s with sched := setRegs s.sched u f }
  | otherFork {s : Forking} {sched' : Sched} {u v node : ℕ} (th : Thread)
      (hcur : s.sched.currentThread = some u) (hu : u ≠ p ∨ s.point = .returned)
      (hnode : s.sched.threadList.nodes node = none)
      (hv : ∀ n, s.sched.threadList.value n ≠ some v) (hvp : v ≠ p) (hvc : v ≠ c)
      (hcall : schedAddThread { s.sched with threads := update s.sched.threads v th }
        node v = .ok sched') :
      ForkStep p c s .program { s with sched := sched' }
  | otherExit {s : Forking} {u : ℕ} (hcur : s.sched.currentThread = some u)
      (hu : u ≠ p ∨ s.point = .returned) :
      ForkStep p c s .program { s with sched := schedRemoveThread s.sched u }

/-- No preemption from the entry to the end of the copy, and none that resumes the child before its
`rax` is stored. -/
def Undisturbed (c : ℕ) (s : Forking) (s' : Forking) : Prop :=
  (∀ k < frameRegs.length, s.point ≠ .copying k) ∧
    (s.point = .added → s'.sched.currentThread ≠ some c)

/-- A step of which the preemptions are undisturbing. -/
def CarefulStep (p c : ℕ) (s s' : Forking) : Prop :=
  ∃ e, ForkStep p c s e s' ∧ (e = .preempt → Undisturbed c s s')

/-- What the registers of the child are, by the point that the parent has reached. -/
def Expected (f : Frame) : ForkPoint → Frame → Prop
  | .copying k, g => ∀ i < k, ∀ r, frameRegs[i]? = some r → g r = f r
  | .copied, g | .added, g => g = f
  | .returned, g => g = update f .rax 0

structure ForkInv (p c : ℕ) (f : Frame) (s : Forking) : Prop where
  unlisted : s.point ≠ .added → s.point ≠ .returned → ∀ n, s.sched.threadList.value n ≠ some c
  parent : ∀ k < frameRegs.length, s.point = .copying k →
    s.sched.currentThread = some p ∧ (s.sched.threads p).regs = f
  child : s.resumed = none → Expected f s.point (s.sched.threads c).regs
  waiting : s.resumed = none → s.sched.currentThread ≠ some c
  started : s.resumed ≠ none → s.point = .returned
  first : ∀ g ∈ s.resumed, g = update f .rax 0

section Steps
variable {s s' : Forking} {p c u : ℕ} {f : Frame} {e : ForkEvent}

theorem setRegs_self (s : Sched) (t : ℕ) (f : Frame) : ((setRegs s t f).threads t).regs = f := by
  simp [setRegs]

theorem setRegs_of_ne (s : Sched) {t u : ℕ} (f : Frame) (h : u ≠ t) :
    (setRegs s t f).threads u = s.threads u := update_of_ne h ..

theorem forkInv_entry {s : Sched} (hpc : p ≠ c) (hcur : s.currentThread = some p)
    (hc : ∀ n, s.threadList.value n ≠ some c) : ForkInv p c f (syscallEntry s p f) where
  unlisted := fun _ _ => hc
  parent := fun _ _ _ => ⟨hcur, setRegs_self s p f⟩
  child := fun _ i hi => absurd hi (Nat.not_lt_zero i)
  waiting := fun _ h => hpc (some.inj (hcur.symm.trans h))
  started := fun h => absurd rfl h
  first := nofun

section
variable (h : ForkInv p c f s)
include h

theorem ForkInv.not_resumed (hpoint : s.point ≠ .returned) : s.resumed = none := by
  by_contra hne
  exact hpoint (h.started hne)

theorem ForkInv.copy (hpc : p ≠ c) {k : ℕ} {r : Reg} (hpoint : s.point = .copying k)
    (hk : frameRegs[k]? = some r) :
    ForkInv p c f { s with sched := copyReg p c s.sched r, point := .copying (k + 1) } := by
  have hlt : k < frameRegs.length := (List.getElem?_eq_some_iff.mp hk).1
  have hnone := h.not_resumed (by simp [hpoint])
  obtain ⟨hcur, hregs⟩ := h.parent k hlt hpoint
  have hchild := h.child hnone
  rw [hpoint] at hchild
  constructor
  · intro _ _
    exact h.unlisted (by simp [hpoint]) (by simp [hpoint])
  · intro j _ _
    refine ⟨hcur, ?_⟩
    rw [copyReg, setRegs_of_ne _ _ hpc, hregs]
  · intro _ i hi r' hr'
    rw [copyReg, setRegs_self, hregs]
    by_cases hrr : r' = r
    · rw [hrr, update_self]
    · rw [update_of_ne hrr]
      refine hchild i (Nat.lt_of_le_of_ne (Nat.le_of_lt_succ hi) fun heq => hrr ?_) r' hr'
      rw [heq, hk] at hr'
      exact (some.inj hr').symm
  · exact fun _ => h.waiting hnone
  · exact fun hne => absurd hnone hne
  · exact h.first

theorem ForkInv.fill (kernelStack : BitVec 64) (newProcess : ℕ)
    (hpoint : s.point = .copying frameRegs.length) : ForkInv p c f
      { s with sched := forkThread s.sched p c kernelStack newProcess, point := .copied } := by
  have hnone := h.not_resumed (by simp [hpoint])
  have hchild := h.child hnone
  rw [hpoint] at hchild
  constructor
  · intro _ _
    exact h.unlisted (by simp [hpoint]) (by simp [hpoint])
  · exact fun _ _ => nofun
  · intro _
    funext r
    obtain ⟨i, hi⟩ := List.mem_iff_getElem?.mp (mem_frameRegs r)
    rw [← hchild i (List.getElem?_eq_some_iff.mp hi).1 r hi]
    simp [forkThread]
  · exact fun _ => h.waiting hnone
  · exact fun hne => absurd hnone hne
  · exact h.first

theorem ForkInv.add {sched' : Sched} {node : ℕ} (hcur : s.sched.currentThread = some p)
    (hpoint : s.point = .copied) (hcall : schedAddThread s.sched node c = .ok sched') :
    ForkInv p c f { s with sched := sched', point := .added } := by
  have hnone := h.not_resumed (by simp [hpoint])
  have hchild := h.child hnone
  obtain ⟨hthreads, hcur', -, -⟩ := schedAddThread_spec hcall
  rw [hcur, some_or] at hcur'
  rw [hpoint] at hchild
  constructor
  · exact fun hne => absurd rfl hne
  · exact fun _ _ => nofun
  · intro _
    have hregs : (sched'.threads c).regs = (s.sched.threads c).regs := by
      rw [hthreads, setStatus_self]
    exact hregs.trans hchild
  · intro _ hc
    exact h.waiting hnone (hcur.trans (hcur'.symm.trans hc))
  · exact fun hne => absurd hnone hne
  · exact h.first

theorem ForkInv.zero (hpoint : s.point = .added) : ForkInv p c f { s with
      sched := setRegs s.sched c (update (s.sched.threads c).regs .rax 0)
      point := .returned } := by
  have hnone := h.not_resumed (by simp [hpoint])
  have hchild := h.child hnone
  rw [hpoint] at hchild
  constructor
  · exact fun _ hne => absurd rfl hne
  · exact fun _ _ => nofun
  · intro _
    have hregs : (s.sched.threads c).regs = f := hchild
    rw [setRegs_self, hregs]
    rfl
  · exact fun _ => h.waiting hnone
  · exact fun _ => rfl
  · exact h.first

theorem ForkInv.other {sched' : Sched} (hpoint : ∀ k < frameRegs.length, s.point ≠ .copying k)
    (hregs : s.resumed = none → (sched'.threads c).regs = (s.sched.threads c).regs)
    (hcur : sched'.currentThread = s.sched.currentThread)
    (hlist : ∀ n, sched'.threadList.value n = some c → s.sched.threadList.value n = some c) :
    ForkInv p c f { s with sched := sched' } := by
  constructor
  · exact fun h1 h2 n hn => h.unlisted h1 h2 n (hlist n hn)
  · exact fun k hk hp => absurd hp (hpoint k hk)
  · intro hnone
    have hchild := h.child hnone
    rwa [← hregs hnone] at hchild
  · intro hnone
    rw [hcur]
    exact h.waiting hnone
  · exact h.started
  · exact h.first

theorem ForkInv.not_copying (hcur : s.sched.currentThread = some u)
    (hu : u ≠ p ∨ s.point = .returned) : ∀ k < frameRegs.length, s.point ≠ .copying k := by
  intro k hk hpoint
  rcases hu with hu | hu
  · exact hu (some.inj (hcur.symm.trans (h.parent k hk hpoint).1))
  · rw [hpoint] at hu
    cases hu

end

variable {cpu cpu' : Cpu}

/-- A preemption while the child is not running keeps its registers, and resumes it only from the
list. -/
theorem preempt_waiting {s s' : Sched} (hcall : schedPreempt s cpu = .ok (s', cpu'))
    (hwait : s.currentThread ≠ some c) : (s'.threads c).regs = (s.threads c).regs ∧
      (∀ n, s'.threadList.value n = some c → s.threadList.value n = some c) ∧
      (s'.currentThread = some c →
        cpu'.regs = (s.threads c).regs ∧ ∃ n, s.threadList.value n = some c) := by
  rcases schedPreempt_cases hcall with ⟨-, rfl, -⟩ | ⟨t, u, ht, hsw, hu, hregs⟩
  · exact ⟨rfl, fun _ hn => hn, fun hc => absurd hc hwait⟩
  · have hct : c ≠ t := fun heq => hwait (heq ▸ ht)
    have hkeep : (s'.threads c).regs = (s.threads c).regs := by
      rw [hsw.regs_eq, Sched.store]
      exact congrArg Thread.regs (update_of_ne hct _ _)
    refine ⟨hkeep, fun n hn => hsw.values n c hn, fun hc => ?_⟩
    cases hu.symm.trans hc
    refine ⟨hregs.trans hkeep, ?_⟩
    rcases hsw.current with ⟨hsame, -⟩ | ⟨v, n, hn, hv, -⟩
    · exact absurd (hsame.symm.trans hu) hwait
    · cases hu.symm.trans hv
      exact ⟨n, hn⟩

/-- A preemption resumes the child only with the registers the parent has left for it. -/
theorem ForkInv.preempt (h : ForkInv p c f s) {sched' : Sched}
    (hcall : schedPreempt s.sched cpu = .ok (sched', cpu'))
    (hpoint : ∀ k < frameRegs.length, s.point ≠ .copying k)
    (hadded : s.point = .added → sched'.currentThread ≠ some c) : ForkInv p c f { s with
      sched := sched'
      resumed := if sched'.currentThread = some c then s.resumed.or (some cpu'.regs)
        else s.resumed } := by
  cases hres : s.resumed with
  | some g =>
    -- the child has been resumed before, so only the recorded frame matters
    have hret : s.point = .returned := h.started (by simp [hres])
    simp only [some_or, ite_self]
    exact ⟨fun _ hne => absurd hret hne, fun k hk hp => absurd hp (hpoint k hk), nofun, nofun,
      fun _ => hret, hres ▸ h.first⟩
  | none =>
    obtain ⟨hregs, hlist, hresume⟩ := preempt_waiting hcall (h.waiting hres)
    have hchild := h.child hres
    by_cases hc : sched'.currentThread = some c
    · obtain ⟨hframe, n, hn⟩ := hresume hc
      have hret : s.point = .returned := by
        by_contra hne
        exact h.unlisted (fun ha => hadded ha hc) hne n hn
      rw [hret] at hchild
      simp only [hc, if_true, none_or]
      refine ⟨fun _ hne => absurd hret hne, fun k hk hp => absurd hp (hpoint k hk), nofun, nofun,
        fun _ => hret, ?_⟩
      intro g hg
      rw [← some.inj hg, hframe]
      exact hchild
    · simp only [hc, if_false]
      refine ⟨fun h1 h2 n hn => h.unlisted h1 h2 n (hlist n hn),
        fun k hk hp => absurd hp (hpoint k hk), fun _ => ?_, fun _ => hc, fun hne => absurd rfl hne,
        nofun⟩
      rwa [← hregs] at hchild

theorem ForkInv.step (h : ForkInv p c f s) (hpc : p ≠ c) (hstep : CarefulStep p c s s') :
    ForkInv p c f s' := by
  obtain ⟨e, hstep, hcare⟩ := hstep
  cases hstep with
  | copy hcur hpoint hk => exact h.copy hpc hpoint hk
  | fill kernelStack newProcess hcur hpoint => exact h.fill kernelStack newProcess hpoint
  | add hcur hpoint hnode hcall => exact h.add hcur hpoint hcall
  | zero hcur hpoint => exact h.zero hpoint
  | preempt cpu cpu' hcall => exact h.preempt hcall (hcare rfl).1 (hcare rfl).2
  | otherRegs g hcur hu =>
    refine h.other (h.not_copying hcur hu) ?_ rfl fun _ hn => hn
    intro hnone
    have hne : c ≠ _ := fun heq => h.waiting hnone (heq ▸ hcur)
    rw [setRegs_of_ne _ _ hne]
  | otherFork th hcur hu hnode hv hvp hvc hcall =>
    obtain ⟨hthreads, hcur', -, hlist⟩ := schedAddThread_spec hcall
    refine h.other (h.not_copying hcur hu) ?_ ?_ ?_
    · intro _
      rw [hthreads, setStatus_of_ne _ hvc.symm]
      exact congrArg Thread.regs (update_of_ne hvc.symm _ _)
    · rw [hcur', hcur]
      rfl
    · intro n hn
      exact (hlist n c hn).resolve_left hvc.symm
  | otherExit hcur hu =>
    refine h.other (h.not_copying hcur hu) ?_ rfl fun _ hn => hn
    intro hnone
    have hne : c ≠ _ := fun heq => h.waiting hnone (heq ▸ hcur)
    rw [schedRemoveThread, setStatus_of_ne _ hne]

/-- The child of a fork that is not disturbed starts with the frame that the parent entered with,
and with 0 in `rax`. -/
theorem fork_child_frame {s0 : Sched} (hpc : p ≠ c) (hcur : s0.currentThread = some p)
    (hc : ∀ n, s0.threadList.value n ≠ some c)
    (hrun : ReflTransGen (CarefulStep p c) (syscallEntry s0 p f) s) :
    ∀ g ∈ s.resumed, g = update f .rax 0 :=
  (Runs.invariant (fun _ _ h => h.step hpc) (forkInv_entry hpc hcur hc) hrun).first

end Steps

section Sample
variable {p c : ℕ}

theorem foldl_copyReg_current (s : Sched) (rs : List Reg) :
    (rs.foldl (copyReg p c) s).currentThread = s.currentThread := by
  induction rs generalizing s with
  | nil => rfl
  | cons r rs ih => exact ih (copyReg p c s r)

theorem copy_run {s : Sched} (hcur : s.currentThread = some p) {k : ℕ} (hk : k ≤ frameRegs.length) :
    ReflTransGen (CarefulStep p c) ⟨s, .copying 0, none⟩
      ⟨(frameRegs.take k).foldl (copyReg p c) s, .copying k, none⟩ := by
  induction k with
  | zero => exact .refl
  | succ k ih =>
    have hget : frameRegs[k]? = some (frameRegs.get ⟨k, hk⟩) := List.getElem?_eq_getElem hk
    refine (ih (Nat.le_of_succ_le hk)).tail ⟨.program, ?_, nofun⟩
    rw [List.take_add_one, hget, List.foldl_append]
    exact .copy ((foldl_copyReg_current s _).trans hcur) rfl hget

variable {s : Forking} {sched' : Sched}

section
variable (cpu cpu' : Cpu) (hcall : schedPreempt s.sched cpu = .ok (sched', cpu'))
include cpu cpu' hcall

theorem preempt_other (hc : sched'.currentThread ≠ some c) :
    ForkStep p c s .preempt { s with sched := sched' } := by
  have hstep := ForkStep.preempt (p := p) (c := c) cpu cpu' hcall
  rwa [if_neg hc] at hstep

theorem preempt_resume (hc : sched'.currentThread = some c) (hnone : s.resumed = none) :
    ForkStep p c s .preempt { s with sched := sched', resumed := some cpu'.regs } := by
  have hstep := ForkStep.preempt (p := p) (c := c) cpu cpu' hcall
  rwa [if_pos hc, hnone, none_or] at hstep

end

/-- A user frame, and the frame of an interrupt in the kernel. -/
def userFrame : Frame := fun r => if r = .rip then 0x401000 else 7

def kernelFrame : Frame := fun r => if r = .rip then 0xFFFFFFFF80001000 else 0

/-- The parent 100 copies all registers to the thread 200 without an interrupt. -/
theorem copy_all (s : Sched) (hcur : s.currentThread = some 100) :
    ReflTransGen (CarefulStep 100 200) ⟨s, .copying 0, none⟩
      ⟨frameRegs.foldl (copyReg 100 200) s, .copying frameRegs.length, none⟩ := by
  have hrun := copy_run (c := 200) hcur le_rfl
  rwa [List.take_length] at hrun

/-- The parent is interrupted before its copy: the child starts in the middle of the kernel. -/
theorem fork_child_frame_interrupted : ∃ s0 s,
    schedInit (fun _ => sampleThread) sampleThread 10 100 = .ok s0 ∧
    ReflTransGen (fun a b => ∃ e, ForkStep 100 200 a e b) (syscallEntry s0 100 userFrame)
      s ∧ ∃ g ∈ s.resumed, g ≠ update userFrame .rax 0 := by
  have hcopy (s : Sched) (hcur : s.currentThread = some 100) :=
    ReflTransGen.mono (p := fun a b => ∃ e, ForkStep 100 200 a e b)
      (fun a b hab => hab.imp fun e he => he.1) _ _ (copy_all s hcur)
  refine ⟨_, _, rfl, ((((((ReflTransGen.single
    ⟨_, preempt_other { sampleCpu with regs := kernelFrame } _ rfl (by decide)⟩).trans
    (hcopy _ rfl)).tail ⟨_, .fill 0 2 rfl rfl⟩).tail
    ⟨_, @ForkStep.add 100 200 _ _ 20 rfl rfl rfl rfl⟩).tail ⟨_, .zero rfl rfl⟩).tail
    ⟨_, preempt_other sampleCpu _ rfl (by decide)⟩).tail
    ⟨_, preempt_resume sampleCpu _ rfl rfl rfl⟩, _, rfl, ?_⟩
  intro heq
  exact absurd (congrFun heq .rip) (by decide)

/-- Preempted only after its return, the parent has a child that starts right. -/
theorem fork_child_frame_undisturbed : ∃ s0 s,
    schedInit (fun _ => sampleThread) sampleThread 10 100 = .ok s0 ∧
    ReflTransGen (CarefulStep 100 200) (syscallEntry s0 100 userFrame) s ∧
    ∃ g ∈ s.resumed, g = update userFrame .rax 0 := by
  obtain ⟨s0, s, g, h0, hcur, hnew, hrun, hg⟩ : ∃ s0 s g,
      schedInit (fun _ => sampleThread) sampleThread 10 100 = .ok s0 ∧
      s0.currentThread = some 100 ∧ (∀ n, s0.threadList.value n ≠ some 200) ∧
      ReflTransGen (CarefulStep 100 200) (syscallEntry s0 100 userFrame) s ∧
      g ∈ s.resumed := by
    exact ⟨_, _, _, rfl, rfl, second_new rfl, (((((copy_all _ rfl).tail
      ⟨_, .fill 0 2 rfl rfl, nofun⟩).tail
      ⟨_, @ForkStep.add 100 200 _ _ 20 rfl rfl rfl rfl, nofun⟩).tail ⟨_, .zero rfl rfl, nofun⟩).tail
      ⟨_, preempt_other sampleCpu _ rfl (by decide), fun _ => ⟨nofun, nofun⟩⟩).tail
      ⟨_, preempt_resume sampleCpu _ rfl rfl rfl, fun _ => ⟨nofun, nofun⟩⟩, rfl⟩
  exact ⟨s0, s, h0, hrun, g, hg, fork_child_frame (by decide) hcur hnew hrun g hg⟩

end Sample

end GarnOS
