import GarnOS.Library.RoundRobin
import GarnOS.Sched.Cursor

/-! While no thread is destroyed, the scheduler is a circle of threads that take turns. -/
namespace GarnOS
open Chain Outcome Runs RoundRobin

/-- The calls of the scheduler without the removal of threads, labelled with the thread that is
added or chosen. A preemption chooses a thread if there are at least two. -/
inductive SchedTurn : Sched → Turn ℕ → Sched → Prop where
  | add {s s' : Sched} {node t : ℕ} (th : Thread) (hnode : s.threadList.nodes node = none)
      (ht : ∀ n, s.threadList.value n ≠ some t)
      (hcall : schedAddThread { s with threads := Function.update s.threads t th } node t = .ok s') :
      SchedTurn s (.join t) s'
  | preempt {s s' : Sched} {t : ℕ} (cpu cpu' : Cpu) (hmore : 2 ≤ s.threadList.nodeCount)
      (hcall : schedPreempt s cpu = .ok (s', cpu')) (ht : s'.currentThread = some t) :
      SchedTurn s (.pick t) s'
  | alone {s s' : Sched} (cpu cpu' : Cpu) (hone : s.threadList.nodeCount ≤ 1)
      (hcall : schedPreempt s cpu = .ok (s', cpu')) : SchedTurn s .rest s'

/-- The list is the circle, and the cursor is at the thread whose turn is next; at the end of the
list that is the first one. -/
structure InTurn (s : Sched) (r : Circle ℕ) (xs : List (ℕ × ℕ)) (t : ℕ) : Prop where
  scheduled : Scheduled s xs t
  alive : (s.threads t).status ≠ .destroyed
  names : r.names = xs.map Prod.snd
  next : (xs.map Prod.fst)[r.next]? = s.currentThreadNode.or s.threadList.head

section Steps
variable {s s' : Sched} {r : Circle ℕ} {xs : List (ℕ × ℕ)} {t u node : ℕ} {cpu cpu' : Cpu}

theorem InTurn.lt (h : InTurn s r xs t) : r.next < xs.length := by
  have hlt := r.next_lt
  rwa [h.names, List.length_map] at hlt

theorem InTurn.not_stale (h : InTurn s r xs t) : ¬s.Stale := by
  rintro ⟨-, t', n, ht, hd, -⟩
  cases h.scheduled.current.symm.trans ht
  exact h.alive hd

theorem InTurn.join (h : InTurn s r xs t) (th : Thread) (hnode : s.threadList.nodes node = none)
    (hu : u ∉ xs.map Prod.snd) :
    ∃ s', schedAddThread { s with threads := Function.update s.threads u th } node u = .ok s' ∧
      ∃ hr, InTurn s' (r.insert u hr) (xs ++ [(node, u)]) t := by
  obtain ⟨s', hcall, hs', hcur, hth⟩ := h.scheduled.add th hnode hu
  refine ⟨s', hcall, h.names ▸ hu, hs', hth ▸ h.alive, ?_, ?_⟩
  · simp [h.names]
  · have hsome := List.getElem?_eq_getElem (l := xs.map Prod.fst) (by simpa using h.lt)
    have hnext := h.next
    rw [hsome] at hnext
    rw [List.map_append, Circle.insert_next, List.getElem?_append_left (by simpa using h.lt),
      hsome, hcur, ← hnext]
    rfl

variable (h : InTurn s r xs t)
include h

theorem InTurn.pick (hlen : 2 ≤ xs.length) (cpu : Cpu) :
    ∃ s' cpu', schedPreempt s cpu = .ok (s', cpu') ∧ InTurn s' r.advance xs r.turn := by
  obtain ⟨pre, n, u, post, rfl, hpre⟩ := split_index h.lt
  have hs := h.scheduled
  have htarget : s.currentThreadNode.or s.threadList.head = some n := by
    rw [← h.next, ← hpre]
    simp
  have hturn : r.turn = u := by
    have hget := r.getElem?_turn
    rw [h.names, ← hpre] at hget
    simpa using hget.symm
  have halive : ((s.store t cpu).threads t).status ≠ .destroyed := by
    simpa [Sched.store] using h.alive
  obtain ⟨s', hcall, hs', hcur, hready⟩ := (hs.store cpu).choose_keep hlen halive htarget
  obtain ⟨cpu', hpreempt⟩ := hs.preempt_of_choose hcall hs'
  refine ⟨s', cpu', hpreempt, hturn ▸ hs', ?_, h.names, ?_⟩
  · rw [hturn, hready]
    simp
  · rw [hcur, hs'.holds.head_eq, Circle.advance_next, h.names, ← hpre]
    cases post with
    | nil =>
      simp
      cases pre <;> rfl
    | cons y post => simp

theorem InTurn.rest (hlen : xs.length ≤ 1) (cpu : Cpu) :
    ∃ cpu', schedPreempt s cpu = .ok (s.store t cpu, cpu') ∧ InTurn (s.store t cpu) r xs t := by
  have hs := h.scheduled
  obtain ⟨pre, n, post, rfl⟩ := hs.mem_split
  have hone : pre ++ (n, t) :: post = [(n, t)] := by
    cases pre with
    | nil =>
      cases post with
      | nil => rfl
      | cons y post => simp at hlen
    | cons x pre => simp at hlen
  have hcall : schedGetNextThread (s.store t cpu) = .ok (s.store t cpu) := by
    refine schedGetNextThread_one (n := n) (u := t) ?_
    rw [← hone]
    exact hs.holds
  obtain ⟨cpu', hpreempt⟩ := hs.preempt_of_choose hcall (hs.store cpu)
  refine ⟨cpu', hpreempt, hs.store cpu, ?_, h.names, h.next⟩
  simpa [Sched.store] using h.alive

theorem InTurn.step {e : Turn ℕ} (hstep : SchedTurn s e s') :
    ∃ r', Circle.Step r e r' ∧ ∃ xs' t', InTurn s' r' xs' t' := by
  cases hstep with
  | add th hnode hnew hcall =>
    obtain ⟨s1, hcall1, hr, h1⟩ := h.join th hnode (h.scheduled.notMem_of_value hnew)
    cases hcall1.symm.trans hcall
    exact ⟨_, .join hr, _, _, h1⟩
  | preempt cpu cpu' hmore hcall hcur =>
    rw [h.scheduled.holds.count] at hmore
    obtain ⟨s1, cpu1, hcall1, h1⟩ := h.pick hmore cpu
    cases hcall1.symm.trans hcall
    cases h1.scheduled.current.symm.trans hcur
    exact ⟨_, .pick, _, _, h1⟩
  | alone cpu cpu' hone hcall =>
    rw [h.scheduled.holds.count] at hone
    obtain ⟨cpu1, hcall1, h1⟩ := h.rest hone cpu
    cases hcall1.symm.trans hcall
    exact ⟨_, .rest, _, _, h1⟩

theorem InTurn.run {es : List (Turn ℕ)} (hrun : Trace SchedTurn s es s') :
    ∃ r', Trace Circle.Step r es r' ∧ ∃ xs' t', InTurn s' r' xs' t' := by
  refine Trace.simulate (fun s r => ∃ xs t, InTurn s r xs t) ?_ ⟨xs, t, h⟩ hrun
  rintro a b e c ⟨ys, u, h⟩ hstep
  exact h.step hstep

theorem InTurn.mem_names (hu : s.HasThread u) : u ∈ r.names := by
  obtain ⟨n, hlinked, hvalue⟩ := hu
  rw [h.names]
  exact h.scheduled.holds.mem_of_linked hlinked hvalue

end Steps

section Contract
variable {threads : ℕ → Thread} {th : Thread} {node t : ℕ} {s : Sched}

theorem inTurn_schedInit (h : schedInit threads th node t = .ok s) :
    ∃ r : Circle ℕ, InTurn s r [(node, t)] t := by
  obtain ⟨s1, hcall, hs, hcur, hready⟩ :=
    @NoThreads.first _ t node (noThreads_schedCreate threads) th rfl
  cases hcall.symm.trans h
  refine ⟨⟨[t], by simp, 0, by simp⟩, hs, by simp [hready], rfl, ?_⟩
  rw [hcur]
  rfl

/-- From `sched_init` on, the running process is the one of the running thread and every preemption
returns; between two consecutive choices of a thread, every other thread that was in the list all
the time is chosen exactly once. -/
theorem sched_round_robin (hinit : schedInit threads th node t = .ok s) :
    (∀ es s', Trace SchedTurn s es s' → ∃ u, s'.currentThread = some u ∧
      s'.currentProcess = some (s'.threads u).process ∧ ∀ cpu, ∃ r, schedPreempt s' cpu = .ok r) ∧
    ∀ before mid s1 s2 s3 s4 u, Trace SchedTurn s before s1 → SchedTurn s1 (.pick u) s2 →
      Trace SchedTurn s2 mid s3 → SchedTurn s3 (.pick u) s4 → Turn.pick u ∉ mid →
      ∀ v ≠ u, s2.HasThread v → mid.count (.pick v) = 1 := by
  obtain ⟨r, h⟩ := inTurn_schedInit hinit
  constructor
  · intro es s' hrun
    obtain ⟨r', -, xs, u, h'⟩ := h.run hrun
    refine ⟨u, h'.scheduled.current, h'.scheduled.process, fun cpu => ?_⟩
    obtain ⟨s'', cpu', -, -, hcall, -⟩ := h'.scheduled.preempt h'.not_stale cpu
    exact ⟨_, hcall⟩
  · intro before mid s1 s2 s3 s4 u hbefore h12 hmid h34 hno v hv hmem
    obtain ⟨r1, -, xs1, t1, h1⟩ := h.run hbefore
    obtain ⟨r2, hr12, xs2, t2, h2⟩ := h1.step h12
    obtain ⟨r3, hr23, xs3, t3, h3⟩ := h2.run hmid
    obtain ⟨r4, hr34, -⟩ := h3.step h34
    exact Circle.once_between hr12 hr23 hr34 hno (h2.mem_names hmem) hv

theorem exists_two_turns : ∃ s s1 s2 s3 s4,
    schedInit (fun _ => sampleThread) sampleThread 10 100 = .ok s ∧
    Trace SchedTurn s [.join 200] s1 ∧ SchedTurn s1 (.pick 100) s2 ∧
    Trace SchedTurn s2 [.pick 200] s3 ∧ SchedTurn s3 (.pick 100) s4 ∧ s2.HasThread 200 := by
  exact ⟨_, _, _, _, _, rfl, ⟨_, @SchedTurn.add _ _ 20 _ sampleThread rfl (second_new rfl) rfl, rfl⟩,
    .preempt sampleCpu _ (by decide) rfl rfl, ⟨_, .preempt sampleCpu _ (by decide) rfl rfl, rfl⟩,
    .preempt sampleCpu _ (by decide) rfl rfl, 20, ⟨[10, 20], ⟨rfl, rfl, rfl⟩, by simp⟩, rfl⟩

theorem sched_round_robin_two : ∃ s s1 s2 s3 s4,
    schedInit (fun _ => sampleThread) sampleThread 10 100 = .ok s ∧
    Trace SchedTurn s [.join 200] s1 ∧ SchedTurn s1 (.pick 100) s2 ∧
    Trace SchedTurn s2 [.pick 200] s3 ∧ SchedTurn s3 (.pick 100) s4 ∧
    [Turn.pick 200].count (.pick 200) = 1 := by
  obtain ⟨s, s1, s2, s3, s4, h0, h1, h2, h3, h4, hmem⟩ := exists_two_turns
  exact ⟨s, s1, s2, s3, s4, h0, h1, h2, h3, h4, (sched_round_robin h0).2 _ _ _ _ _ _ _ h1 h2 h3 h4
    (by decide) 200 (by decide) hmem⟩

end Contract

end GarnOS
