import GarnOS.Process.Reaping
import GarnOS.Sched.Cursor

/-! `process_terminate` store by store, with preemptions and the `sys_waitpid` of the parent in
between: which threads are left for a process that has been freed. `sys_fork` is one step. -/
namespace GarnOS
open Function Chain Outcome Runs Option Relation

/-- Where a thread is: outside the calls below, before or after the store of the zombie status of
its process, behind the end of its thread, or about to free the child that its scan has found. -/
inductive ExitPoint where
  | outside
  | exiting (cur : ℕ)
  | zombied (cur : ℕ)
  | exited
  | reaping (child : ℕ)
  deriving DecidableEq

structure Exiting where
  sched : Sched
  table : ProcTable
  point : ℕ → ExitPoint

inductive ExitEvent where
  | program
  | preempt
  deriving DecidableEq

inductive ExitStep : Exiting → ExitEvent → Exiting → Prop where
  | fork {s : Exiting} {sched' : Sched} {table' : ProcTable} {t cur a c node : ℕ} {pid : ℤ}
      (th : Thread) (hcur : s.sched.currentThread = some t) (hpoint : s.point t = .outside)
      (hproc : s.sched.currentProcess = some cur) (ha : s.table.procs a = none)
      (hc : ¬s.sched.Knows c) (hnode : s.sched.threadList.nodes node = none) (hth : th.process = a)
      (htable : sysFork s.table cur a c = .ok (pid, table'))
      (hsched : schedAddThread { s.sched with threads := update s.sched.threads c th }
        node c = .ok sched') :
      ExitStep s .program ⟨sched', table', update s.point c .outside⟩
  | exit {s : Exiting} {t cur : ℕ} {p : ProcessT} (status : ℤ)
      (hcur : s.sched.currentThread = some t) (hpoint : s.point t = .outside)
      (hproc : s.sched.currentProcess = some cur) (hp : s.table.procs cur = some p) :
      ExitStep s .program { s with
        table := s.table.set cur { p with exitStatus := exitCode status }
        point := update s.point t (.exiting cur) }
  | exception {s : Exiting} {t cur : ℕ} (hcur : s.sched.currentThread = some t)
      (hpoint : s.point t = .outside) (hproc : s.sched.currentProcess = some cur) :
      ExitStep s .program { s with point := update s.point t (.exiting cur) }
  | zombie {s : Exiting} {table' : ProcTable} {t cur : ℕ} (hcur : s.sched.currentThread = some t)
      (hpoint : s.point t = .exiting cur) (hcall : processTerminate s.table cur = .ok table') :
      ExitStep s .program
        { s with table := table', point := update s.point t (.zombied cur) }
  | destroy {s : Exiting} {t cur : ℕ} {p : ProcessT} (hcur : s.sched.currentThread = some t)
      (hpoint : s.point t = .zombied cur) (hp : s.table.procs cur = some p) :
      ExitStep s .program { s with
        sched := schedRemoveThread s.sched p.mainThread
        point := update s.point t .exited }
  | scan {s : Exiting} {t cur child : ℕ} (arg : ℤ) (hcur : s.sched.currentThread = some t)
      (hpoint : s.point t = .outside) (hproc : s.sched.currentProcess = some cur)
      (hcall : waitpidScan s.table cur arg = .ok (some child)) :
      ExitStep s .program { s with point := update s.point t (.reaping child) }
  | free {s : Exiting} {table' : ProcTable} {t child : ℕ} (hcur : s.sched.currentThread = some t)
      (hpoint : s.point t = .reaping child) (hcall : processFree s.table child = .ok table') :
      ExitStep s .program
        { s with table := table', point := update s.point t .outside }
  | preempt {s : Exiting} {sched' : Sched} (cpu cpu' : Cpu)
      (hcall : schedPreempt s.sched cpu = .ok (sched', cpu')) :
      ExitStep s .preempt { s with sched := sched' }

/-- The running thread is between the two stores of its exit. -/
def BetweenStores (s : Exiting) : Prop :=
  ∃ t cur, s.sched.currentThread = some t ∧ s.point t = .zombied cur

/-- A step that is no preemption between the two stores. -/
def ClosedStep (s s' : Exiting) : Prop :=
  ∃ e, ExitStep s e s' ∧ (e = .preempt → ¬BetweenStores s)

/-- A thread that can still run belongs to an allocated process and is its main thread. -/
def OwnsProcess (s : Exiting) (u : ℕ) : Prop :=
  ∃ p, s.table.procs (s.sched.threads u).process = some p ∧ p.mainThread = u

/-- What holds of a thread in `s`. Only the running thread is between its two stores, so a zombie has
no other thread that can run. -/
structure ThreadOk (s : Exiting) (u : ℕ) : Prop where
  owned : (s.sched.threads u).status ≠ .destroyed →
    ∃ p, s.table.info (s.sched.threads u).process = some p ∧ p.mainThread = u ∧
      (p.status = .zombie → s.point u = .zombied (s.sched.threads u).process)
  gone : (s.sched.threads u).status = .destroyed → s.point u = .exited
  exiting : ∀ cur, s.point u = .exiting cur ∨ s.point u = .zombied cur →
    cur = (s.sched.threads u).process
  here : ∀ cur, s.point u = .zombied cur → s.sched.currentThread = some u
  reaping : ∀ child, s.point u = .reaping child → ∃ p, s.table.info child = some p ∧
    p.status = .zombie ∧ p.parent = some (s.sched.threads u).process

structure ExitInv (s : Exiting) : Prop where
  listed : ∃ l, Listed s.table l
  process : ∀ t, s.sched.currentThread = some t →
    s.sched.currentProcess = some (s.sched.threads t).process
  threads : ∀ u, s.sched.Knows u → ThreadOk s u

/-- A step of another thread. -/
theorem ThreadOk.other {s s' : Exiting} {u : ℕ} (h : ThreadOk s u)
    (hprocess : (s'.sched.threads u).process = (s.sched.threads u).process)
    (hdestroyed : (s'.sched.threads u).status = .destroyed ↔
      (s.sched.threads u).status = .destroyed)
    (hpoint : s'.point u = s.point u)
    (hhere : ∀ cur, s.point u = .zombied cur → s'.sched.currentThread = some u)
    (hinfo : ∀ p, (s.sched.threads u).status ≠ .destroyed →
      s.table.info (s.sched.threads u).process = some p → ∃ p', p'.mainThread = p.mainThread ∧
        p'.status = p.status ∧ s'.table.info (s.sched.threads u).process = some p')
    (hreap : ∀ child p, s.point u = .reaping child → s.table.info child = some p →
      p.status = .zombie → p.parent = some (s.sched.threads u).process →
      s'.table.info child = some p) : ThreadOk s' u := by
  refine ⟨?_, ?_, ?_, ?_, ?_⟩
  all_goals rw [hpoint]
  all_goals try rw [hprocess]
  · intro hud
    have hud := mt hdestroyed.mpr hud
    obtain ⟨p, hp, hmain, hz⟩ := h.owned hud
    obtain ⟨p', hmain', hstatus, hp'⟩ := hinfo p hud hp
    exact ⟨p', hp', hmain'.trans hmain, hstatus ▸ hz⟩
  · exact fun hd => h.gone (hdestroyed.mp hd)
  · exact h.exiting
  · exact hhere
  · intro child hp
    obtain ⟨p, hpi, hz, hparent⟩ := h.reaping child hp
    exact ⟨p, hreap child p hp hpi hz hparent, hz, hparent⟩

section Steps
variable {s : Exiting} {sched' : Sched} {table' : ProcTable} {t u cur : ℕ}

section
variable (h : ExitInv s) (hu : s.sched.Knows u)
include h hu

theorem ExitInv.alive (hpoint : s.point u ≠ .exited) :
    (s.sched.threads u).status ≠ .destroyed := fun hd => hpoint ((h.threads u hu).gone hd)

theorem ExitInv.process_inj {v : ℕ} (hv : s.sched.Knows v)
    (hud : (s.sched.threads u).status ≠ .destroyed) (hvd : (s.sched.threads v).status ≠ .destroyed)
    (heq : (s.sched.threads u).process = (s.sched.threads v).process) : u = v := by
  obtain ⟨p, hp, hpu, -⟩ := (h.threads u hu).owned hud
  obtain ⟨q, hq, hqv, -⟩ := (h.threads v hv).owned hvd
  rw [heq] at hp
  cases hp.symm.trans hq
  exact hpu.symm.trans hqv

theorem ExitInv.not_zombie (hud : (s.sched.threads u).status ≠ .destroyed)
    (hpoint : ∀ cur, s.point u ≠ .zombied cur) {p : ProcessT}
    (hp : s.table.info (s.sched.threads u).process = some p) : p.status ≠ .zombie := by
  obtain ⟨q, hq, -, hz⟩ := (h.threads u hu).owned hud
  cases hp.symm.trans hq
  exact fun hzombie => hpoint _ (hz hzombie)

end

theorem ExitInv.advance (h : ExitInv s) (hcur : s.sched.currentThread = some t)
    (hexited : s.point t ≠ .exited) (hzombied : ∀ cur, s.point t ≠ .zombied cur) {pt : ExitPoint}
    (hlisted : ∃ l, Listed table' l)
    (hself : ∃ p', table'.info (s.sched.threads t).process = some p' ∧ p'.mainThread = t ∧
      (p'.status = .zombie → pt = .zombied (s.sched.threads t).process))
    (hothers : ∀ a ≠ (s.sched.threads t).process, table'.info a = s.table.info a)
    (hexit : ∀ cur, pt = .exiting cur ∨ pt = .zombied cur → cur = (s.sched.threads t).process)
    (hreap : ∀ child, pt = .reaping child → ∃ p, table'.info child = some p ∧ p.status = .zombie ∧
      p.parent = some (s.sched.threads t).process) :
    ExitInv { s with table := table', point := update s.point t pt } := by
  have htk : s.sched.Knows t := .inl hcur
  have htd := h.alive htk hexited
  refine ⟨hlisted, h.process, fun u hu => ?_⟩
  by_cases hut : u = t
  · subst hut
    exact ⟨fun _ => by simpa using hself, fun hd => absurd hd htd,
      fun cur hp => hexit cur (by simpa using hp), fun _ _ => hcur,
      fun child hp => hreap child (by simpa using hp)⟩
  · refine (h.threads u hu).other rfl Iff.rfl (update_of_ne hut ..) (h.threads u hu).here ?_ ?_
    · intro p hud hp
      exact ⟨p, rfl, rfl, (hothers _ fun heq => hut (h.process_inj hu htk hud htd heq)).trans hp⟩
    · rintro child p - hp hz -
      refine (hothers child ?_).trans hp
      rintro rfl
      exact h.not_zombie htk htd hzombied hp hz

section
variable (h : ExitInv s) (hcur : s.sched.currentThread = some t)
include h hcur

theorem ExitInv.current_process (hproc : s.sched.currentProcess = some cur) :
    cur = (s.sched.threads t).process :=
  some.inj (hproc.symm.trans (h.process t hcur))

theorem ExitInv.exception (hpoint : s.point t = .outside)
    (hproc : s.sched.currentProcess = some cur) :
    ExitInv { s with point := update s.point t (.exiting cur) } := by
  obtain rfl := h.current_process hcur hproc
  have htk : s.sched.Knows t := .inl hcur
  have htd := h.alive htk (by simp [hpoint])
  obtain ⟨p, hp, hmain, -⟩ := (h.threads t htk).owned htd
  refine h.advance hcur (by simp [hpoint]) (by simp [hpoint]) h.listed ⟨p, hp, hmain, ?_⟩
    (fun _ _ => rfl) (by simp) (by simp)
  exact fun hz => absurd hz (h.not_zombie htk htd (by simp [hpoint]) hp)

end

theorem ExitInv.exit (h : ExitInv s) {p : ProcessT} (status : ℤ)
    (hcur : s.sched.currentThread = some t) (hpoint : s.point t = .outside)
    (hproc : s.sched.currentProcess = some cur) (hp : s.table.procs cur = some p) :
    ExitInv { s with
      table := s.table.set cur { p with exitStatus := exitCode status }
      point := update s.point t (.exiting cur) } := by
  obtain rfl := h.current_process hcur hproc
  have htk : s.sched.Knows t := .inl hcur
  have htd := h.alive htk (by simp [hpoint])
  obtain ⟨l, hl⟩ := h.listed
  obtain ⟨q, hq, hmain, -⟩ := (h.threads t htk).owned htd
  have hpi := ProcTable.info_eq hp
  cases hpi.symm.trans hq
  have hrunning := h.not_zombie htk htd (by simp [hpoint]) hpi
  refine h.advance hcur (by simp [hpoint]) (by simp [hpoint]) ⟨l, hl.set hp rfl⟩
    ⟨_, info_set_self, hmain, ?_⟩ ?_ (by simp) (by simp)
  · exact fun hz => absurd hz hrunning
  · exact fun a ha => info_set_of_ne ha

section
variable (h : ExitInv s) (hcur : s.sched.currentThread = some t)
include h hcur

theorem ExitInv.zombie (hpoint : s.point t = .exiting cur)
    (hcall : processTerminate s.table cur = .ok table') :
    ExitInv { s with table := table', point := update s.point t (.zombied cur) } := by
  have htk : s.sched.Knows t := .inl hcur
  have htd := h.alive htk (by simp [hpoint])
  obtain rfl := (h.threads t htk).exiting cur (.inl hpoint)
  obtain ⟨l, hl⟩ := h.listed
  obtain ⟨q, hq, hmain, -⟩ := (h.threads t htk).owned htd
  obtain ⟨p, hp, rfl⟩ := map_eq_some_iff.mp hq
  cases (processTerminate_eq hl hp).symm.trans hcall
  exact h.advance hcur (by simp [hpoint]) (by simp [hpoint]) ⟨l, hl.set hp rfl⟩
    ⟨_, info_set_self, hmain, fun _ => rfl⟩ (fun a ha => info_set_of_ne ha) (by simp) (by simp)

theorem ExitInv.scan {child : ℕ} {arg : ℤ} (hpoint : s.point t = .outside)
    (hproc : s.sched.currentProcess = some cur)
    (hcall : waitpidScan s.table cur arg = .ok (some child)) :
    ExitInv { s with point := update s.point t (.reaping child) } := by
  obtain rfl := h.current_process hcur hproc
  have htk : s.sched.Knows t := .inl hcur
  have htd := h.alive htk (by simp [hpoint])
  obtain ⟨l, hl⟩ := h.listed
  obtain ⟨p, hp, hmain, -⟩ := (h.threads t htk).owned htd
  obtain ⟨-, pc, hpc, hz, hparent, -⟩ := hl.scan hcall
  refine h.advance hcur (by simp [hpoint]) (by simp [hpoint]) h.listed ⟨p, hp, hmain, ?_⟩
    (fun _ _ => rfl) (by simp) ?_
  · exact fun hz => absurd hz (h.not_zombie htk htd (by simp [hpoint]) hp)
  · intro c hc
    obtain rfl := ExitPoint.reaping.inj hc
    exact ⟨_, ProcTable.info_eq hpc, hz, hparent⟩

theorem ExitInv.destroy {p : ProcessT} (hpoint : s.point t = .zombied cur)
    (hp : s.table.procs cur = some p) : ExitInv { s with
      sched := schedRemoveThread s.sched p.mainThread
      point := update s.point t .exited } := by
  have htk : s.sched.Knows t := .inl hcur
  have htd := h.alive htk (by simp [hpoint])
  obtain rfl := (h.threads t htk).exiting cur (.inr hpoint)
  obtain ⟨q, hq, hmain, -⟩ := (h.threads t htk).owned htd
  cases (ProcTable.info_eq hp).symm.trans hq
  have hmain : p.mainThread = t := hmain
  rw [hmain]
  have hthread : ∀ u ≠ t, (schedRemoveThread s.sched t).threads u = s.sched.threads u := fun u hu =>
    setStatus_of_ne _ hu
  have hproc : ∀ u, ((schedRemoveThread s.sched t).threads u).process =
      (s.sched.threads u).process := by
    intro u
    by_cases hut : u = t
    · rw [hut, schedRemoveThread, setStatus_self]
    · rw [hthread u hut]
  refine ⟨h.listed, ?_, fun u hu => ?_⟩
  · intro u hu
    rw [hproc u]
    exact h.process u hu
  · by_cases hut : u = t
    · subst hut
      exact ⟨fun hd => absurd (by simp [schedRemoveThread]) hd, fun _ => update_self ..,
        fun c hp => by simp at hp, fun _ _ => hcur, fun c hp => by simp at hp⟩
    · refine (h.threads u hu).other (hproc u) ?_ (update_of_ne hut ..) (h.threads u hu).here
        (fun p _ hp => ⟨p, rfl, rfl, hp⟩) fun _ _ _ hp _ _ => hp
      dsimp only
      rw [hthread u hut]

theorem ExitInv.free {child : ℕ} (hpoint : s.point t = .reaping child)
    (hcall : processFree s.table child = .ok table') :
    ExitInv { s with table := table', point := update s.point t .outside } := by
  have htk : s.sched.Knows t := .inl hcur
  have htd := h.alive htk (by simp [hpoint])
  obtain ⟨pc, hpc, hz, hparent⟩ := (h.threads t htk).reaping child hpoint
  obtain ⟨l, hl⟩ := h.listed
  have hmem : child ∈ l := (hl.alloc child).mpr fun hnone => by
    rw [info_eq_none.mpr hnone] at hpc
    cases hpc
  obtain ⟨p, q, rfl⟩ := List.append_of_mem hmem
  obtain ⟨t1, hcall1, hlisted, -, -, hinfo⟩ := processFree_spec hl
  cases hcall1.symm.trans hcall
  -- a thread that can run and is not between its stores has no zombie process
  have hne : ∀ u, s.sched.Knows u → (s.sched.threads u).status ≠ .destroyed →
      (s.sched.threads u).process ≠ child := by
    rintro u hu hud rfl
    obtain ⟨q, hq, -, hzu⟩ := (h.threads u hu).owned hud
    cases hpc.symm.trans hq
    cases hcur.symm.trans ((h.threads u hu).here _ (hzu hz))
    cases hpoint.symm.trans (hzu hz)
  have howned : ∀ u q, s.sched.Knows u → (s.sched.threads u).status ≠ .destroyed →
      s.table.info (s.sched.threads u).process = some q →
      table'.info (s.sched.threads u).process = some (reparent child s.table.initProc q) := by
    intro u q hu hud hq
    rw [hinfo, if_neg (hne u hu hud), hq]
    rfl
  refine ⟨⟨_, hlisted⟩, h.process, fun u hu => ?_⟩
  by_cases hut : u = t
  · subst hut
    refine ⟨fun hud => ?_, fun hd => absurd hd htd, fun c hp => by simp at hp, fun _ _ => hcur,
      fun c hp => by simp at hp⟩
    obtain ⟨q, hq, hmain, hzu⟩ := (h.threads u hu).owned hud
    refine ⟨_, howned u q hu hud hq, by simpa using hmain, fun hzombie => ?_⟩
    cases hpoint.symm.trans (hzu (by simpa using hzombie))
  · refine (h.threads u hu).other rfl Iff.rfl (update_of_ne hut ..) (h.threads u hu).here
      (fun q hud hq => ⟨_, by simp, by simp, howned u q hu hud hq⟩) ?_
    intro c q hpu hq hzq hpq
    have hud := h.alive hu (by simp [hpu])
    have hcc : c ≠ child := by
      rintro rfl
      cases hpc.symm.trans hq
      exact hut (h.process_inj hu htk hud htd (some.inj (hpq.symm.trans hparent)))
    have hkeep : reparent child s.table.initProc q = q := by
      apply reparent_of_ne
      rw [hpq]
      exact fun heq => hne u hu hud (some.inj heq)
    dsimp only
    rw [hinfo, if_neg hcc, hq, map_some, hkeep]

end

theorem ExitInv.fork (h : ExitInv s) {a c node : ℕ} {pid : ℤ} (th : Thread)
    (hcur : s.sched.currentThread = some t) (hpoint : s.point t = .outside)
    (hproc : s.sched.currentProcess = some cur) (ha : s.table.procs a = none)
    (hc : ¬s.sched.Knows c) (hth : th.process = a)
    (htable : sysFork s.table cur a c = .ok (pid, table'))
    (hsched : schedAddThread { s.sched with threads := update s.sched.threads c th }
      node c = .ok sched') :
    ExitInv ⟨sched', table', update s.point c .outside⟩ := by
  obtain rfl := h.current_process hcur hproc
  have htk : s.sched.Knows t := .inl hcur
  obtain ⟨p, hp, -⟩ := (h.threads t htk).owned (h.alive htk (by simp [hpoint]))
  obtain ⟨l, hl⟩ := h.listed
  have hmem : (s.sched.threads t).process ∈ l := (hl.alloc _).mpr fun hnone => by
    rw [info_eq_none.mpr hnone] at hp
    cases hp
  obtain ⟨_, hcall1, hlisted, -, -, hinfo⟩ :=
    sysFork_spec hl ha (List.ne_nil_of_mem hmem) (nextPid_of_fork htable)
      (s.sched.threads t).process c
  cases htable.symm.trans hcall1
  obtain ⟨hthreads, hcur', hproc', hlist⟩ := schedAddThread_spec hsched
  have hknows : ∀ u, sched'.Knows u → u = c ∨ s.sched.Knows u := by
    rintro u (hu | ⟨n, hn⟩)
    · rw [hcur', hcur] at hu
      exact .inr (.inl (hcur.trans hu))
    · exact (hlist n u hn).imp_right fun hn => .inr ⟨n, hn⟩
  have hold : ∀ u ≠ c, sched'.threads u = s.sched.threads u := by
    intro u hu
    rw [hthreads, setStatus_of_ne _ hu]
    exact update_of_ne hu ..
  have hnew : (sched'.threads c).process = a ∧ (sched'.threads c).status = .ready := by
    rw [hthreads, setStatus_self]
    simp [hth]
  have hanone : s.table.info a = none := info_eq_none.mpr ha
  have hentry : table'.info a =
      some ⟨s.table.nextPid, 0, .running, c, some (s.sched.threads t).process, none⟩ := by
    rw [hinfo, update_self]
  have hinfo' : ∀ b p, s.table.info b = some p → table'.info b = some p := by
    intro b p hb
    have hba : b ≠ a := by
      rintro rfl
      cases hanone.symm.trans hb
    rw [hinfo, update_of_ne hba, hb]
  refine ⟨⟨_, hlisted⟩, ?_, fun u hu => ?_⟩
  · intro u hu
    rw [hcur', hcur, some_or] at hu
    obtain rfl := some.inj hu
    have huc : t ≠ c := fun heq => hc (heq ▸ htk)
    rw [hold t huc, hproc', hproc]
    rfl
  · by_cases huc : u = c
    · subst huc
      refine ⟨fun _ => ?_, fun hd => (nomatch hnew.2.symm.trans hd), fun d hp => by simp at hp,
        fun d hp => by simp at hp, fun d hp => by simp at hp⟩
      rw [hnew.1]
      exact ⟨_, hentry, rfl, nofun⟩
    · have huk := h.threads u ((hknows u hu).resolve_left huc)
      refine huk.other ?_ ?_ (update_of_ne huc ..) (fun d hp => ?_)
        (fun p _ hp => ⟨p, rfl, rfl, hinfo' _ _ hp⟩) fun child p _ hp _ _ => hinfo' _ _ hp
      · rw [hold u huc]
      · rw [hold u huc]
      · rw [hcur', hcur]
        exact hcur.symm.trans (huk.here d hp)

theorem ExitInv.preempt (h : ExitInv s) {cpu cpu' : Cpu}
    (hcall : schedPreempt s.sched cpu = .ok (sched', cpu')) (hbetween : ¬BetweenStores s) :
    ExitInv { s with sched := sched' } := by
  rcases schedPreempt_cases hcall with ⟨-, rfl, -⟩ | ⟨t, u, ht, hsw, hu, -⟩
  · exact h
  have hstored : ∀ v, (((s.sched.store t cpu).threads v).process = (s.sched.threads v).process) ∧
      ((s.sched.store t cpu).threads v).status = (s.sched.threads v).status := by
    intro v
    by_cases hv : v = t
    all_goals simp [Sched.store, hv]
  have hprocess : ∀ v, (sched'.threads v).process = (s.sched.threads v).process := fun v =>
    (hsw.process_eq v).trans (hstored v).1
  have hdestroyed : ∀ v, (sched'.threads v).status = .destroyed ↔
      (s.sched.threads v).status = .destroyed := fun v => by
    rw [hsw.destroyed_iff, (hstored v).2]
  have hknows : ∀ v, sched'.Knows v → s.sched.Knows v := by
    rintro v (hv | ⟨n, hn⟩)
    · rcases hsw.current with ⟨hsame, -⟩ | ⟨w, n, hn, hw, -⟩
      · exact .inl (hsame.symm.trans hv)
      · cases hw.symm.trans hv
        exact .inr ⟨n, hn⟩
    · exact .inr ⟨n, hsw.values n v hn⟩
  refine ⟨h.listed, ?_, fun v hv => ?_⟩
  · intro v hv
    rcases hsw.current with ⟨hsame, hp⟩ | ⟨w, n, -, hw, hp⟩
    · rw [hprocess v, hp]
      exact h.process v (hsame.symm.trans hv)
    · cases hv.symm.trans hw
      rw [hp, hprocess v, (hstored v).1]
  · have hvk := h.threads v (hknows v hv)
    exact hvk.other (hprocess v) (hdestroyed v) rfl
      (fun cur hp => absurd ⟨v, cur, hvk.here cur hp, hp⟩ hbetween)
      (fun p _ hp => ⟨p, rfl, rfl, hp⟩) fun _ _ _ hp _ _ => hp

theorem ExitInv.step {s' : Exiting} (h : ExitInv s) (hstep : ClosedStep s s') : ExitInv s' := by
  obtain ⟨e, hstep, hclosed⟩ := hstep
  cases hstep with
  | fork th hcur hpoint hproc ha hc hnode hth htable hsched =>
    exact h.fork th hcur hpoint hproc ha hc hth htable hsched
  | exit status hcur hpoint hproc hp => exact h.exit status hcur hpoint hproc hp
  | exception hcur hpoint hproc => exact h.exception hcur hpoint hproc
  | zombie hcur hpoint hcall => exact h.zombie hcur hpoint hcall
  | destroy hcur hpoint hp => exact h.destroy hcur hpoint hp
  | scan arg hcur hpoint hproc hcall => exact h.scan hcur hpoint hproc hcall
  | free hcur hpoint hcall => exact h.free hcur hpoint hcall
  | preempt cpu cpu' hcall => exact h.preempt hcall (hclosed rfl)

end Steps

section Contract
variable {s s0 : Exiting} {a t node : ℕ} {th : Thread} {threads : ℕ → Thread}

/-- The state after `sched_init` and `process_create_init`. -/
structure Booted (a t node : ℕ) (s : Exiting) : Prop where
  table : processCreateInit a t = .ok s.table
  sched : ∃ threads th, th.process = a ∧ schedInit threads th node t = .ok s.sched
  point : ∀ u, s.point u = .outside

theorem exitInv_booted (h : Booted a t node s) : ExitInv s := by
  obtain ⟨threads, th, hth, hsched⟩ := h.sched
  have htable := procInv_init h.table
  obtain ⟨hthreads, hcur, hproc, hlist⟩ := schedAddThread_spec hsched
  have hknows : ∀ u, s.sched.Knows u → u = t := by
    rintro u (hu | ⟨n, hn⟩)
    · exact (some.inj (hcur.symm.trans hu)).symm
    · refine (hlist n u hn).resolve_right fun hold => ?_
      cases hold
  have hthread : (s.sched.threads t).process = a ∧ (s.sched.threads t).status = .ready := by
    rw [hthreads, setStatus_self]
    simp [schedCreate, hth]
  refine ⟨⟨_, htable.listed⟩, ?_, fun u hu => ?_⟩
  · intro u hu
    obtain rfl := hknows u (.inl hu)
    rw [hproc, hthread.1]
    simp [schedCreate, hth]
  · obtain rfl := hknows u hu
    refine ⟨fun _ => ?_, fun hd => ?_, ?_, ?_, ?_⟩
    · have hinit := (Except.ok.inj ((processCreateInit_eq u).symm.trans h.table)).symm
      rw [hthread.1, hinit]
      refine ⟨⟨1, 0, .running, u, none, none⟩, by simp [ProcTable.info, ProcessT.unlinked], rfl, ?_⟩
      intro hzombie
      cases hzombie
    · cases hthread.2.symm.trans hd
    all_goals simp [h.point u]

/-- If no preemption separates the two stores of an exit, every thread of the list that is not
destroyed is the main thread of an allocated process. -/
theorem exit_reap_safe (hboot : Booted a t node s0)
    (hrun : ReflTransGen ClosedStep s0 s) :
    ∀ u, s.sched.HasThread u → (s.sched.threads u).status ≠ .destroyed → OwnsProcess s u := by
  have h : ExitInv s := Runs.invariant (fun _ _ h hstep => h.step hstep) (exitInv_booted hboot) hrun
  rintro u ⟨n, -, hn⟩ hud
  obtain ⟨p, hp, hmain, -⟩ := (h.threads u (.inr ⟨n, hn⟩)).owned hud
  obtain ⟨q, hq, rfl⟩ := map_eq_some_iff.mp hp
  exact ⟨q, hq, hmain⟩

def mainThreadOf (a : ℕ) : Thread := { sampleThread with process := a }

theorem not_between (hcur : s.sched.currentThread = some t)
    (hpoint : ∀ cur, s.point t ≠ .zombied cur) :
    ¬BetweenStores s := by
  rintro ⟨u, cur, hu, hp⟩
  cases hcur.symm.trans hu
  exact hpoint cur hp

theorem not_knows_child {sched : Sched}
    (h : schedInit (fun _ => mainThreadOf 1000) (mainThreadOf 1000) 10 100 = .ok sched) :
    ¬sched.Knows 200 := by
  obtain ⟨-, hcur, -, hlist⟩ := schedAddThread_spec h
  rintro (hu | ⟨n, hn⟩)
  · exact absurd (hcur.symm.trans hu) (by decide)
  · exact (hlist n 200 hn).elim (by decide) nofun

/-- The child is preempted between its two stores, and its parent frees it: a ready thread is left
without a process. -/
theorem exit_reap_preempted : ∃ s0 s, Booted 1000 100 10 s0 ∧
    ReflTransGen (fun a b => ∃ e, ExitStep a e b) s0 s ∧ s.sched.HasThread 200 ∧
    (s.sched.threads 200).status = .ready ∧ s.table.procs (s.sched.threads 200).process = none := by
  refine ⟨⟨_, _, fun _ => .outside⟩, _,
    ⟨rfl, ⟨fun _ => mainThreadOf 1000, mainThreadOf 1000, rfl, rfl⟩,
    fun _ => rfl⟩, (((((((ReflTransGen.single ⟨_, @ExitStep.fork _ _ _ 100 1000 2000 200 20 _
      (mainThreadOf 2000) rfl rfl rfl rfl (not_knows_child rfl) rfl rfl rfl rfl⟩).tail
      ⟨_, .preempt sampleCpu _ rfl⟩).tail ⟨_, .preempt sampleCpu _ rfl⟩).tail
      ⟨_, @ExitStep.exit _ 200 2000 _ 0 rfl rfl rfl rfl⟩).tail
      ⟨_, @ExitStep.zombie _ _ 200 2000 rfl rfl rfl⟩).tail ⟨_, .preempt sampleCpu _ rfl⟩).tail
      ⟨_, @ExitStep.scan _ 100 1000 2000 (-1) rfl rfl rfl rfl⟩).tail
      ⟨_, @ExitStep.free _ _ 100 2000 rfl rfl rfl⟩, ?_, rfl, rfl⟩
  exact ⟨20, ⟨[10, 20], ⟨rfl, rfl, rfl⟩, by simp⟩, rfl⟩

/-- With its exit in one piece, the child is gone from the list before it is freed. -/
theorem exit_reap_safe_closed : ∃ s0 s, Booted 1000 100 10 s0 ∧
    ReflTransGen ClosedStep s0 s ∧ s.table.procs 2000 = none ∧ OwnsProcess s 100 := by
  obtain ⟨s0, s, hboot, hrun, hfreed, hlisted, hready⟩ : ∃ s0 s, Booted 1000 100 10 s0 ∧
      ReflTransGen ClosedStep s0 s ∧ s.table.procs 2000 = none ∧ s.sched.HasThread 100 ∧
      (s.sched.threads 100).status = .ready := by
    refine ⟨⟨_, _, fun _ => .outside⟩, _,
      ⟨rfl, ⟨fun _ => mainThreadOf 1000, mainThreadOf 1000, rfl, rfl⟩, fun _ => rfl⟩,
      ((((((((ReflTransGen.single ⟨_, @ExitStep.fork _ _ _ 100 1000 2000 200 20 _
        (mainThreadOf 2000) rfl rfl rfl rfl (not_knows_child rfl) rfl rfl rfl rfl, nofun⟩).tail
        ⟨_, .preempt sampleCpu _ rfl, fun _ => not_between (t := 100) rfl nofun⟩).tail
        ⟨_, .preempt sampleCpu _ rfl, fun _ => not_between (t := 100) rfl nofun⟩).tail
        ⟨_, @ExitStep.exit _ 200 2000 _ 0 rfl rfl rfl rfl, nofun⟩).tail
        ⟨_, @ExitStep.zombie _ _ 200 2000 rfl rfl rfl, nofun⟩).tail
        ⟨_, @ExitStep.destroy _ 200 2000 _ rfl rfl rfl, nofun⟩).tail
        ⟨_, .preempt sampleCpu _ rfl, fun _ => not_between (t := 200) rfl nofun⟩).tail
        ⟨_, @ExitStep.scan _ 100 1000 2000 (-1) rfl rfl rfl rfl, nofun⟩).tail
        ⟨_, @ExitStep.free _ _ 100 2000 rfl rfl rfl, nofun⟩, rfl, ?_, rfl⟩
    exact ⟨10, ⟨[10], ⟨rfl, rfl⟩, by simp⟩, rfl⟩
  exact ⟨s0, s, hboot, hrun, hfreed, exit_reap_safe hboot hrun 100 hlisted (by simp [hready])⟩

end Contract

end GarnOS
