import GarnOS.Library.Runs
import GarnOS.Sched.Sched

/-! The cursor of the scheduler: which node it is at in every state, and the one situation in which
a preemption follows it to a node that the list has given back. -/
namespace GarnOS
open Chain Outcome List Relation

def ListT.Linked (l : ListT) (n : ℕ) : Prop := ∃ ns, Visits l.next l.head ns ∧ n ∈ ns

variable {l : ListT} {xs : List (ℕ × ℕ)} {n : ℕ}

theorem Holds.linked (h : Holds l xs) (hn : n ∈ xs.map Prod.fst) : l.Linked n := ⟨_, h.visits, hn⟩

def Sched.HasThread (s : Sched) (t : ℕ) : Prop :=
  ∃ n, s.threadList.Linked n ∧ s.threadList.value n = some t

theorem Holds.mem_of_linked {v : ℕ} (h : Holds l xs) (hn : l.Linked n) (hv : l.value n = some v) :
    v ∈ xs.map Prod.snd := by
  obtain ⟨ns, hvisits, hmem⟩ := hn
  rw [hvisits.unique h.visits] at hmem
  obtain ⟨x, hx, rfl⟩ := mem_map.mp hmem
  have hval := Option.some.inj ((h.values x hx).symm.trans hv)
  exact hval ▸ mem_map_of_mem hx

/-- The running thread is destroyed, is not the only one, and the cursor is at its own node. -/
def Sched.Stale (s : Sched) : Prop :=
  2 ≤ s.threadList.nodeCount ∧ ∃ t n, s.currentThread = some t ∧
    (s.threads t).status = .destroyed ∧ s.currentThreadNode = some n ∧
    s.threadList.value n = some t

structure NoThreads (s : Sched) : Prop where
  holds : Holds s.threadList []
  current : s.currentThread = none
  process : s.currentProcess = none
  cursor : s.currentThreadNode = none

/-- The threads of `xs` are in the list, each once. The running one is `t`, every other one is
ready, and the cursor is at the end or at a node of the list. -/
structure Scheduled (s : Sched) (xs : List (ℕ × ℕ)) (t : ℕ) : Prop where
  holds : Holds s.threadList xs
  distinct : (xs.map Prod.snd).Nodup
  current : s.currentThread = some t
  mem : t ∈ xs.map Prod.snd
  process : s.currentProcess = some (s.threads t).process
  cursor : ∀ n ∈ s.currentThreadNode, n ∈ xs.map Prod.fst
  ready : ∀ x ∈ xs, x.2 ≠ t → (s.threads x.2).status = .ready

section Specs
variable {s : Sched} {xs pre post : List (ℕ × ℕ)} {t u n node : ℕ} {cpu : Cpu} {l : ListT}

theorem Holds.head_eq (h : Holds l xs) : l.head = (xs.map Prod.fst).head? :=
  h.visits.head

theorem Holds.deref_head (h : Holds l ((n, u) :: xs)) :
    l.node (some n) = .ok ⟨(xs.map Prod.fst).head?, u⟩ := by
  rw [← nil_append ((n, u) :: xs)] at h
  exact h.deref

theorem Holds.exists_target {c : Option ℕ} (h : Holds l xs) (hne : xs ≠ [])
    (hc : ∀ n ∈ c, n ∈ xs.map Prod.fst) :
    ∃ pre n u post, xs = pre ++ (n, u) :: post ∧ c.or l.head = some n := by
  cases c with
  | none =>
    obtain ⟨⟨n, u⟩, xs, rfl⟩ := exists_cons_of_ne_nil hne
    exact ⟨[], n, u, xs, rfl, by simp [h.head_eq]⟩
  | some n =>
    obtain ⟨⟨m, u⟩, hx, rfl⟩ := mem_map.mp (hc n rfl)
    obtain ⟨pre, post, rfl⟩ := append_of_mem hx
    exact ⟨pre, m, u, post, rfl, rfl⟩

theorem schedAdvance_eq (h : Holds s.threadList (pre ++ (n, u) :: post))
    (hn : s.currentThreadNode.or s.threadList.head = some n) :
    schedAdvance s = .ok (s.select u (post.map Prod.fst).head?) := by
  unfold schedAdvance
  rw [hn, h.deref]
  rfl

theorem schedCheckReady_eq {mid : Sched} {fuel : ℕ} (hput : schedPutBack s = .ok mid)
    (h : Holds mid.threadList (pre ++ (n, u) :: post))
    (hn : mid.currentThreadNode.or mid.threadList.head = some n)
    (hu : (mid.threads u).status = .ready) :
    schedCheckReady (fuel + 1) s = .ok (mid.select u (post.map Prod.fst).head?) := by
  have hrun : (mid.select u (post.map Prod.fst).head?).running = .ok u := rfl
  have hstatus : ((mid.select u (post.map Prod.fst).head?).threads u).status = .ready := hu
  unfold schedCheckReady
  rw [hput, ok_bind, schedAdvance_eq h hn, ok_bind, hrun, ok_bind, if_neg (not_not.mpr hstatus)]
  rfl

theorem schedGetNextThread_one (h : Holds s.threadList [(n, u)]) :
    schedGetNextThread s = .ok s := by
  have hhead : s.threadList.head = some n := h.head_eq
  have hnode : s.threadList.node (some n) = .ok ⟨none, u⟩ := h.deref_head
  simp only [schedGetNextThread, hhead, hnode, ok_bind]
  rfl

theorem schedGetNextThread_more (h : Holds s.threadList xs) (hlen : 2 ≤ xs.length) :
    schedGetNextThread s = schedCheckReady (s.threadList.nodeCount + 1) s := by
  obtain ⟨x, ys, rfl⟩ := exists_cons_of_length_pos (by omega : 0 < xs.length)
  obtain ⟨y, zs, rfl⟩ :=
    exists_cons_of_length_pos (Nat.le_of_succ_le_succ hlen : 0 < ys.length)
  have hhead : s.threadList.head = some x.1 := h.head_eq
  have hnode : s.threadList.node (some x.1) = .ok ⟨some y.1, x.2⟩ := h.deref_head
  simp only [schedGetNextThread, hhead, hnode, ok_bind]
  rfl

theorem schedPutBack_keep (ht : s.currentThread = some t) (hd : (s.threads t).status ≠ .destroyed) :
    schedPutBack s = .ok (s.setStatus t .ready) := by
  unfold schedPutBack
  rw [running_of ht, ok_bind, if_neg hd]
  rfl

theorem Scheduled.ne_of_mem (hs : Scheduled s (pre ++ (n, t) :: post) t) {x : ℕ × ℕ}
    (hx : x ∈ pre ++ post) : x.2 ≠ t := by
  rintro rfl
  have hdist := hs.distinct
  rw [map_append, map_cons, nodup_middle, ← map_append] at hdist
  exact (nodup_cons.mp hdist).1 (mem_map.mpr ⟨x, hx, rfl⟩)

theorem schedPutBack_drop (hs : Scheduled s (pre ++ (n, t) :: post) t)
    (hd : (s.threads t).status = .destroyed) :
    ∃ l, schedPutBack s = .ok { s with threadList := l } ∧ Holds l (pre ++ post) ∧
      l.nodes n = none := by
  obtain ⟨l, hcall, hholds, hfree⟩ := hs.holds.remove fun x hx => hs.ne_of_mem (mem_append_left _ hx)
  refine ⟨l, ?_, hholds, hfree⟩
  unfold schedPutBack
  rw [running_of hs.current, ok_bind, if_pos hd, hcall, ok_bind]
  rfl

theorem Scheduled.select (hholds : Holds s.threadList (pre ++ (n, u) :: post))
    (hdist : ((pre ++ (n, u) :: post).map Prod.snd).Nodup)
    (hready : ∀ x ∈ pre ++ (n, u) :: post, (s.threads x.2).status = .ready) :
    Scheduled (s.select u (post.map Prod.fst).head?) (pre ++ (n, u) :: post) u where
  holds := hholds
  distinct := hdist
  current := rfl
  mem := by simp
  process := rfl
  cursor := by
    intro m hm
    have hmem : m ∈ post.map Prod.fst := mem_of_head? hm
    rw [map_append, map_cons]
    exact mem_append_right _ (mem_cons_of_mem _ hmem)
  ready := fun x hx _ => hready x hx

theorem Scheduled.choose_keep (hs : Scheduled s (pre ++ (n, u) :: post) t)
    (hlen : 2 ≤ (pre ++ (n, u) :: post).length) (hd : (s.threads t).status ≠ .destroyed)
    (hn : s.currentThreadNode.or s.threadList.head = some n) :
    ∃ s', schedGetNextThread s = .ok s' ∧ Scheduled s' (pre ++ (n, u) :: post) u ∧
      s'.currentThreadNode = (post.map Prod.fst).head? ∧ (s'.threads u).status = .ready := by
  have hready : ∀ x ∈ pre ++ (n, u) :: post,
      ((s.setStatus t .ready).threads x.2).status = .ready := by
    intro x hx
    by_cases hxt : x.2 = t
    · rw [hxt, setStatus_self]
    · rw [setStatus_of_ne _ hxt]
      exact hs.ready x hx hxt
  refine ⟨(s.setStatus t .ready).select u (post.map Prod.fst).head?, ?_,
    Scheduled.select hs.holds hs.distinct hready, rfl, hready (n, u) (by simp)⟩
  rw [schedGetNextThread_more hs.holds hlen]
  exact schedCheckReady_eq (schedPutBack_keep hs.current hd) hs.holds hn (hready (n, u) (by simp))

theorem Scheduled.mem_split (hs : Scheduled s xs t) :
    ∃ pre n post, xs = pre ++ (n, t) :: post := by
  obtain ⟨⟨n, u⟩, hx, rfl⟩ := mem_map.mp hs.mem
  obtain ⟨pre, post, rfl⟩ := append_of_mem hx
  exact ⟨pre, n, post, rfl⟩

section
variable (hs : Scheduled s (pre ++ (n, t) :: post) t) (hlen : 2 ≤ (pre ++ (n, t) :: post).length)
  (hd : (s.threads t).status = .destroyed)
include hs hlen hd

/-- A destroyed thread leaves the list. The cursor leads to another one if it is not at the node
that is freed. -/
theorem Scheduled.choose_drop (hcur : s.currentThreadNode ≠ some n) :
    ∃ s' u, schedGetNextThread s = .ok s' ∧ Scheduled s' (pre ++ post) u := by
  obtain ⟨l, hput, hholds, -⟩ := schedPutBack_drop hs hd
  have hne : pre ++ post ≠ [] := by
    rintro hnil
    simp [append_eq_nil_iff.mp hnil] at hlen
  have hnodes : ∀ m ∈ s.currentThreadNode, m ∈ (pre ++ post).map Prod.fst := by
    intro m hm
    have hmem := hs.cursor m hm
    have hmn : m ≠ n := fun heq => hcur (heq ▸ hm)
    simpa [hmn] using hmem
  have hready : ∀ x ∈ pre ++ post, (s.threads x.2).status = .ready := by
    intro x hx
    exact hs.ready x (perm_middle.mem_iff.mpr (mem_cons_of_mem _ hx)) (hs.ne_of_mem hx)
  have hdist := hs.distinct
  rw [map_append, map_cons, nodup_middle, ← map_append] at hdist
  obtain ⟨pre', m, u, post', hsplit, htarget⟩ := hholds.exists_target hne hnodes
  rw [hsplit] at hholds hready hdist ⊢
  refine ⟨{ s with threadList := l }.select u (post'.map Prod.fst).head?, u, ?_,
    Scheduled.select (s := { s with threadList := l }) hholds (nodup_cons.mp hdist).2 hready⟩
  rw [schedGetNextThread_more hs.holds hlen]
  exact schedCheckReady_eq hput hholds htarget (hready (m, u) (by simp))

/-- The cursor at the node of the destroyed thread is followed after the node was freed. -/
theorem Scheduled.choose_stale (hcur : s.currentThreadNode = some n) :
    schedGetNextThread s = .error (.overrun n) := by
  obtain ⟨l, hput, -, hfree⟩ := schedPutBack_drop hs hd
  have hadv : schedAdvance { s with threadList := l } = .error (.overrun n) := by
    simp [schedAdvance, hcur, ListT.node, hfree]
  rw [schedGetNextThread_more hs.holds hlen, schedCheckReady, hput, ok_bind, hadv]
  rfl

end

section
variable (hs : Scheduled s xs t)
include hs

theorem Scheduled.update {th : Thread} (hp : th.process = (s.threads t).process) :
    Scheduled { s with threads := Function.update s.threads t th } xs t :=
  { hs with
    process := by simp [hs.process, hp]
    ready := fun x hx hne => by simp [Function.update_of_ne hne, hs.ready x hx hne] }

theorem Scheduled.store (cpu : Cpu) : Scheduled (s.store t cpu) xs t := hs.update rfl

theorem Scheduled.remove : Scheduled (schedRemoveThread s t) xs t := hs.update rfl

theorem Scheduled.choose (hstale : ¬s.Stale) :
    ∃ s' xs' u, schedGetNextThread s = .ok s' ∧ Scheduled s' xs' u := by
  obtain ⟨pre, n, post, rfl⟩ := hs.mem_split
  by_cases hlen : 2 ≤ (pre ++ (n, t) :: post).length
  · by_cases hd : (s.threads t).status = .destroyed
    · have hcur : s.currentThreadNode ≠ some n := by
        intro hcur
        have hvalue : s.threadList.value n = some t := hs.holds.values (n, t) (by simp)
        rw [← hs.holds.count] at hlen
        exact hstale ⟨hlen, t, n, hs.current, hd, hcur, hvalue⟩
      obtain ⟨s', u, hcall, hs'⟩ := hs.choose_drop hlen hd hcur
      exact ⟨s', _, u, hcall, hs'⟩
    · obtain ⟨pre', m, u, post', hsplit, htarget⟩ :=
        hs.holds.exists_target (by simp) hs.cursor
      rw [hsplit] at hs hlen
      obtain ⟨s', hcall, hs', -⟩ := hs.choose_keep hlen hd htarget
      exact ⟨s', _, u, hcall, hs'⟩
  · have hone : pre ++ (n, t) :: post = [(n, t)] := by
      cases pre <;> cases post <;> simp at hlen ⊢
    rw [hone] at hs
    exact ⟨s, _, t, schedGetNextThread_one hs.holds, hs⟩

theorem Scheduled.choose_of_stale (hstale : s.Stale) :
    ∃ n, s.currentThreadNode = some n ∧ schedGetNextThread s = .error (.overrun n) := by
  obtain ⟨hlen, t', n, ht, hd, hcur, hvalue⟩ := hstale
  cases hs.current.symm.trans ht
  rw [hs.holds.count] at hlen
  refine ⟨n, hcur, ?_⟩
  obtain ⟨⟨m, u⟩, hx, rfl⟩ := mem_map.mp (hs.cursor n hcur)
  have hu : u = t := by
    have hval := hs.holds.values (m, u) hx
    exact Option.some.inj (hval.symm.trans hvalue)
  subst hu
  obtain ⟨pre, post, rfl⟩ := append_of_mem hx
  exact hs.choose_stale hlen hd hcur

theorem Scheduled.preempt_eq (cpu : Cpu) :
    schedPreempt s cpu = schedGetNextThread (s.store t cpu) >>= fun s' => do
      let u ← s'.running
      let cpu ← archRestoreContext s' { cpu with kernelStack := (s'.threads u).kernelStack }
      return (s', { cpu with vaspace := (s'.threads u).process }) := by
  have hhead : s.threadList.head ≠ none := by
    rw [hs.holds.head_eq]
    obtain ⟨pre, n, post, rfl⟩ := hs.mem_split
    cases pre <;> simp
  unfold schedPreempt archStoreContext
  rw [if_neg hhead, running_of hs.current]
  rfl

theorem Scheduled.preempt_of_choose {s' : Sched} {xs' : List (ℕ × ℕ)}
    (hcall : schedGetNextThread (s.store t cpu) = .ok s') (hs' : Scheduled s' xs' u) :
    ∃ cpu', schedPreempt s cpu = .ok (s', cpu') := by
  rw [hs.preempt_eq, hcall, ok_bind, running_of hs'.current, ok_bind, archRestoreContext,
    running_of hs'.current]
  exact ⟨_, rfl⟩

theorem Scheduled.stale_store : (s.store t cpu).Stale ↔ s.Stale := by
  simp [Sched.Stale, Sched.store, hs.current]

/-- A preemption returns exactly if the cursor is not stale, to a state of the same kind. -/
theorem Scheduled.preempt (hstale : ¬s.Stale) (cpu : Cpu) :
    ∃ s' cpu' xs' u, schedPreempt s cpu = .ok (s', cpu') ∧ Scheduled s' xs' u := by
  obtain ⟨s', xs', u, hcall, hs'⟩ := (hs.store cpu).choose (hs.stale_store.not.mpr hstale)
  obtain ⟨cpu', hpre⟩ := hs.preempt_of_choose hcall hs'
  exact ⟨s', cpu', xs', u, hpre, hs'⟩

theorem Scheduled.preempt_of_stale (hstale : s.Stale) (cpu : Cpu) :
    ∃ n, s.currentThreadNode = some n ∧ schedPreempt s cpu = .error (.overrun n) := by
  obtain ⟨n, hn, hcall⟩ := (hs.store cpu).choose_of_stale (hs.stale_store.mpr hstale)
  refine ⟨n, hn, ?_⟩
  rw [hs.preempt_eq, hcall]
  rfl

theorem Scheduled.add (th : Thread) (hnode : s.threadList.nodes node = none)
    (hu : u ∉ xs.map Prod.snd) :
    ∃ s', schedAddThread { s with threads := Function.update s.threads u th } node u = .ok s' ∧
      Scheduled s' (xs ++ [(node, u)]) t ∧
      s'.currentThreadNode = s.currentThreadNode.or s.threadList.head ∧
      s'.threads t = s.threads t := by
  obtain ⟨l, hcall, hholds⟩ := hs.holds.insert hnode u
  have hne : ∀ x ∈ xs, x.2 ≠ u := fun x hx heq => hu (heq ▸ mem_map_of_mem hx)
  have htu : t ≠ u := fun heq => hu (heq ▸ hs.mem)
  have hxs : xs ≠ [] := by
    rintro rfl
    exact absurd hs.mem (by simp)
  have hhead : l.head = s.threadList.head := by
    rw [hholds.head_eq, hs.holds.head_eq]
    obtain ⟨x, ys, rfl⟩ := exists_cons_of_ne_nil hxs
    rfl
  refine ⟨_, by simp only [schedAddThread, Sched.setStatus, hcall, ok_bind]; rfl, ?_, ?_⟩
  · constructor
    · exact hholds
    · rw [map_append]
      exact hs.distinct.append (nodup_singleton _) (disjoint_singleton.mpr hu)
    · simp [hs.current]
    · simp [hs.mem]
    · simp [hs.process, htu]
    · intro n hn
      rw [hhead] at hn
      have hmem : n ∈ xs.map Prod.fst := by
        cases hcur : s.currentThreadNode with
        | none =>
          rw [hcur, Option.none_or, hs.holds.head_eq] at hn
          exact mem_of_head? hn
        | some m =>
          rw [hcur, Option.some_or] at hn
          exact hs.cursor n (hcur ▸ hn)
      rw [map_append]
      exact mem_append_left _ hmem
    · intro x hx hxt
      rcases mem_append.mp hx with hx | hx
      · simp [hne x hx, hs.ready x hx hxt]
      · have hx : x = (node, u) := by simpa using hx
        simp [hx]
  · simp [← hhead, htu]

end

theorem NoThreads.first (h : NoThreads s) (th : Thread) (hnode : s.threadList.nodes node = none) :
    ∃ s', schedAddThread { s with threads := Function.update s.threads u th } node u = .ok s' ∧
      Scheduled s' [(node, u)] u ∧ s'.currentThreadNode = some node ∧
      (s'.threads u).status = .ready := by
  obtain ⟨l, hcall, hholds⟩ := h.holds.insert hnode u
  have hhead : l.head = some node := hholds.head_eq
  refine ⟨_, by simp only [schedAddThread, Sched.setStatus, hcall, ok_bind]; rfl, ?_, ?_⟩
  · constructor
    · exact hholds
    · simp
    · simp [h.current]
    · simp
    · simp [h.process]
    · simp [h.cursor, hhead]
    · simp
  · simp [h.cursor, hhead]

end Specs

/-- The calls of the scheduler. A new thread and its list node come from `kmalloc`; only the running
thread is destroyed. -/
inductive SchedStep : Sched → Sched → Prop where
  | add {s s' : Sched} {node t : ℕ} (th : Thread) (hnode : s.threadList.nodes node = none)
      (ht : ∀ n, s.threadList.value n ≠ some t)
      (hcall : schedAddThread { s with threads := Function.update s.threads t th } node t = .ok s') :
      SchedStep s s'
  | remove {s : Sched} {t : ℕ} (ht : s.currentThread = some t) : SchedStep s (schedRemoveThread s t)
  | preempt {s s' : Sched} (cpu cpu' : Cpu) (hcall : schedPreempt s cpu = .ok (s', cpu')) :
      SchedStep s s'

def SchedOk (s : Sched) : Prop := NoThreads s ∨ ∃ xs t, Scheduled s xs t

section Runs
variable {s s' : Sched} {xs : List (ℕ × ℕ)} {t u node : ℕ} {threads : ℕ → Thread}

theorem noThreads_schedCreate (threads : ℕ → Thread) : NoThreads (schedCreate threads) :=
  ⟨holds_listCreate, rfl, rfl, rfl⟩

theorem NoThreads.preempt (h : NoThreads s) (cpu : Cpu) : schedPreempt s cpu = .ok (s, cpu) :=
  if_pos h.holds.head_eq

theorem Scheduled.notMem_of_value (hs : Scheduled s xs t)
    (hu : ∀ n, s.threadList.value n ≠ some u) : u ∉ xs.map Prod.snd := by
  intro hmem
  obtain ⟨x, hx, rfl⟩ := mem_map.mp hmem
  exact hu x.1 (hs.holds.values x hx)

theorem SchedOk.step (h : SchedOk s) (hstep : SchedStep s s') : SchedOk s' := by
  cases hstep with
  | add th hnode ht hcall =>
    rcases h with h | ⟨xs, t, hs⟩
    · obtain ⟨s1, hcall1, hs1, -⟩ := h.first th hnode
      cases hcall1.symm.trans hcall
      exact .inr ⟨_, _, hs1⟩
    · obtain ⟨s1, hcall1, hs1, -⟩ := hs.add th hnode (hs.notMem_of_value ht)
      cases hcall1.symm.trans hcall
      exact .inr ⟨_, _, hs1⟩
  | remove ht =>
    rcases h with h | ⟨xs, t, hs⟩
    · rw [h.current] at ht
      cases ht
    · cases hs.current.symm.trans ht
      exact .inr ⟨_, _, hs.remove⟩
  | preempt cpu cpu' hcall =>
    rcases h with h | ⟨xs, t, hs⟩
    · cases (h.preempt cpu).symm.trans hcall
      exact .inl h
    · by_cases hstale : s.Stale
      · obtain ⟨n, -, hfail⟩ := hs.preempt_of_stale hstale cpu
        cases hfail.symm.trans hcall
      · obtain ⟨s1, cpu1, xs1, u, hcall1, hs1⟩ := hs.preempt hstale cpu
        cases hcall1.symm.trans hcall
        exact .inr ⟨_, _, hs1⟩

theorem schedOk_of_run (hrun : ReflTransGen SchedStep (schedCreate threads) s) :
    SchedOk s :=
  Runs.invariant (fun _ _ => SchedOk.step) (.inl (noThreads_schedCreate threads)) hrun

theorem SchedOk.cursor (h : SchedOk s) : ∀ n ∈ s.currentThreadNode, s.threadList.Linked n := by
  intro n hn
  rcases h with h | ⟨xs, t, hs⟩
  · rw [h.cursor] at hn
    cases hn
  · exact hs.holds.linked (hs.cursor n hn)

theorem SchedOk.preempt_iff (h : SchedOk s) (cpu : Cpu) :
    (∃ r, schedPreempt s cpu = .ok r) ↔ ¬s.Stale := by
  rcases h with h | ⟨xs, t, hs⟩
  · have hnot : ¬s.Stale := by
      rintro ⟨-, t, n, ht, -⟩
      rw [h.current] at ht
      cases ht
    exact ⟨fun _ => hnot, fun _ => ⟨_, h.preempt cpu⟩⟩
  · constructor
    · rintro ⟨r, hr⟩ hstale
      obtain ⟨n, -, hfail⟩ := hs.preempt_of_stale hstale cpu
      cases hfail.symm.trans hr
    · intro hstale
      obtain ⟨s', cpu', xs', u, hcall, -⟩ := hs.preempt hstale cpu
      exact ⟨_, hcall⟩

/-- In every state of a run the cursor is `NULL` or at a linked node, and a preemption gets along
without a freed node exactly if the cursor is not stale. -/
theorem sched_cursor_linked (hrun : ReflTransGen SchedStep (schedCreate threads) s) :
    (∀ n ∈ s.currentThreadNode, s.threadList.Linked n) ∧
      ∀ cpu, (∃ r, schedPreempt s cpu = .ok r) ↔ ¬s.Stale :=
  ⟨(schedOk_of_run hrun).cursor, (schedOk_of_run hrun).preempt_iff⟩

end Runs

section Sample

def sampleThread : Thread := ⟨.ready, fun _ => 0, 0, 0, 0, 1⟩

def sampleCpu : Cpu := ⟨fun _ => 0, 0, 0, 0, 1⟩

theorem second_new {l : ListT} (h : listInsert listCreate 10 100 = .ok l) (n : ℕ) :
    l.value n ≠ some 200 := by
  intro hn
  obtain ⟨-, hfirst⟩ | hfirst := listInsert_value h hn
  all_goals cases hfirst

theorem exists_unpreempted : ∃ s,
    ReflTransGen SchedStep (schedCreate fun _ => sampleThread) s ∧
    s.currentThread = some 100 ∧ s.currentThreadNode = some 10 ∧ (s.threads 100).status = .ready ∧
    ∃ mid, (archStoreContext (schedRemoveThread s 100) sampleCpu >>= schedPutBack) = .ok mid ∧
      mid.currentThreadNode = some 10 ∧ Visits mid.threadList.next mid.threadList.head [20] ∧
      schedPreempt (schedRemoveThread s 100) sampleCpu = .error (.overrun 10) := by
  exact ⟨_, .tail (.single (@SchedStep.add _ _ 10 100 sampleThread rfl nofun rfl))
    (@SchedStep.add _ _ 20 200 sampleThread rfl (second_new rfl) rfl), rfl, rfl, rfl, _, rfl, rfl,
    ⟨rfl, rfl⟩, rfl⟩

/-- The running thread is destroyed before it was ever preempted: its node is freed, and the cursor
is followed there. -/
theorem sched_cursor_freed : ∃ s n mid,
    ReflTransGen SchedStep (schedCreate fun _ => sampleThread) s ∧
    (archStoreContext s sampleCpu >>= schedPutBack) = .ok mid ∧ mid.currentThreadNode = some n ∧
    ¬mid.threadList.Linked n ∧ schedPreempt s sampleCpu = .error (.overrun n) := by
  obtain ⟨s, hrun, hcur, -, -, mid, hmid, hcursor, hrest, hfail⟩ := exists_unpreempted
  refine ⟨schedRemoveThread s 100, 10, mid, hrun.tail (.remove hcur), hmid, hcursor, ?_, hfail⟩
  rintro ⟨ns, hvisits, hmem⟩
  rw [hvisits.unique hrest] at hmem
  simp at hmem

theorem sched_cursor_linked_unpreempted : ∃ s,
    ReflTransGen SchedStep (schedCreate fun _ => sampleThread) s ∧
    s.currentThreadNode = some 10 ∧ s.threadList.Linked 10 ∧
    ∃ r, schedPreempt s sampleCpu = .ok r := by
  obtain ⟨s, hrun, hcurrent, hcur, hready, -⟩ := exists_unpreempted
  have hstale : ¬s.Stale := by
    rintro ⟨-, t, n, ht, hd, -⟩
    cases hcurrent.symm.trans ht
    cases hready.symm.trans hd
  obtain ⟨hlinked, hpreempt⟩ := sched_cursor_linked hrun
  exact ⟨s, hrun, hcur, hlinked 10 hcur, (hpreempt sampleCpu).mpr hstale⟩

end Sample

end GarnOS
