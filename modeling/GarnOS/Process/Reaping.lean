import GarnOS.Library.Runs
import GarnOS.Process.Listing

/-! Runs of `sys_fork`, `sys_exit` and `sys_waitpid`: which processes are in the list, whose
children they are, and what a parent learns when it reaps a child. -/
namespace GarnOS
open Chain Outcome Runs List Function

inductive ProcEvent where
  | fork (parent child : ℤ)
  | exit (pid status : ℤ)
  | reap (parent pid : ℤ) (exitStatus : ℕ)
  deriving DecidableEq

/-- The system calls of the running process at `cur`, each as one step. A zombie makes no calls. -/
inductive ProcStep : ProcTable → ProcEvent → ProcTable → Prop where
  | fork {t t' : ProcTable} {cur a : ℕ} {caller : ProcessT} {pid : ℤ} (mainThread : ℕ)
      (hcur : t.procs cur = some caller) (hrun : caller.status = .running) (ha : t.procs a = none)
      (hcall : sysFork t cur a mainThread = .ok (pid, t')) :
      ProcStep t (.fork caller.pid pid) t'
  | exit {t t' : ProcTable} {cur : ℕ} {caller : ProcessT} (status : ℤ)
      (hcur : t.procs cur = some caller) (hrun : caller.status = .running)
      (hcall : sysExit t cur status = .ok t') : ProcStep t (.exit caller.pid status) t'
  | waitpid {t t' : ProcTable} {cur child : ℕ} {caller : ProcessT} {pid : ℤ} {exitStatus : ℕ}
      (arg : ℤ) (hcur : t.procs cur = some caller) (hrun : caller.status = .running)
      (hcall : sysWaitpid t cur arg = .ok (.reaped child pid exitStatus t')) :
      ProcStep t (.reap caller.pid pid exitStatus) t'

def ProcEvent.child? : ProcEvent → Option ℤ
  | .fork _ child => some child
  | _ => none

def ProcEvent.reaped? : ProcEvent → Option ℤ
  | .reap _ pid _ => some pid
  | _ => none

/-- The pids given out; the first process has pid 1. -/
def createdPids (es : List ProcEvent) : List ℤ := 1 :: es.filterMap ProcEvent.child?

def reapedPids (es : List ProcEvent) : List ℤ := es.filterMap ProcEvent.reaped?

/-- The processes that were created and not reaped. -/
def livePids (es : List ProcEvent) : List ℤ := (createdPids es).filter (· ∉ reapedPids es)

def ProcTable.pid (t : ProcTable) (a : ℕ) : ℤ := ((t.info a).map ProcessT.pid).getD 0

/-- A process runs until its `sys_exit`, and a zombie holds what it passed to the only one. -/
def Told (es : List ProcEvent) (p : ProcessT) : Prop :=
  (p.status = .running → ∀ status, .exit p.pid status ∉ es) ∧
  (p.status = .zombie → ∃ status, .exit p.pid status ∈ es ∧ p.exitStatus = exitCode status ∧
    ∀ status', .exit p.pid status' ∈ es → status' = status)

/-- The state of the processes after the events `es`, with the first process at `i` and the list
`l`. -/
structure ProcInv (i : ℕ) (es : List ProcEvent) (t : ProcTable) (l : List ℕ) : Prop where
  listed : Listed t l
  first : t.initProc = some i ∧ ∃ p, t.info i = some p ∧ p.parent = none
  parents : ∀ a p, t.info a = some p → t.initProc ≠ some a → ∃ b ∈ l, p.parent = some b
  pids : l.map t.pid = livePids es
  created : ∃ n : ℕ, t.nextPid = n + 1 ∧ createdPids es = (range n).map fun k : ℕ => (k : ℤ) + 1
  once : (reapedPids es).Nodup
  origin : ∀ pid ∈ reapedPids es, pid ∈ createdPids es
  exited : ∀ pid status, .exit pid status ∈ es → pid ∈ createdPids es
  told : ∀ a p, t.info a = some p → Told es p

section Steps
variable {es : List ProcEvent} {e : ProcEvent} {t t' : ProcTable} {l : List ℕ} {i a cur : ℕ}
  {p : ProcessT}

attribute [local simp] ProcEvent.child? ProcEvent.reaped?

@[simp] theorem createdPids_concat :
    createdPids (es ++ [e]) = createdPids es ++ e.child?.toList := by
  cases e <;> simp [createdPids]

@[simp] theorem reapedPids_concat : reapedPids (es ++ [e]) = reapedPids es ++ e.reaped?.toList := by
  cases e <;> simp [reapedPids]

theorem createdPids_mono : createdPids es ⊆ createdPids (es ++ [e]) := by
  simp

theorem livePids_reap (parent pid : ℤ) (code : ℕ) :
    livePids (es ++ [.reap parent pid code]) = (livePids es).filter (· ≠ pid) := by
  simp [livePids, filter_filter, Bool.and_comm]

theorem ProcTable.pid_eq (h : t.info a = some p) : t.pid a = p.pid := by
  simp [ProcTable.pid, h]

theorem ProcTable.info_eq (h : t.procs a = some p) : t.info a = some p.unlinked := by
  simp [ProcTable.info, h]

theorem ProcInv.fresh (h : ProcInv i es t l) : t.nextPid ∉ createdPids es := by
  obtain ⟨n, hn, hpids⟩ := h.created
  simp [hn, hpids]

theorem ProcInv.distinct (h : ProcInv i es t l) : (createdPids es).Nodup := by
  obtain ⟨n, -, hpids⟩ := h.created
  rw [hpids]
  exact nodup_range.map fun j k hjk => by simpa using hjk

theorem ProcInv.mem (h : ProcInv i es t l) (ha : t.info a = some p) : a ∈ l := by
  rw [h.listed.alloc, Ne, ← info_eq_none, ha]
  simp

theorem ProcInv.pid_mem (h : ProcInv i es t l) (ha : t.info a = some p) :
    p.pid ∈ createdPids es ∧ p.pid ∉ reapedPids es := by
  have hmem : p.pid ∈ l.map t.pid := ProcTable.pid_eq ha ▸ mem_map_of_mem (h.mem ha)
  rw [h.pids] at hmem
  simpa [livePids] using hmem

theorem filter_map_ne {α β : Type*} [DecidableEq β] {f : α → β} {p q : List α} {c : α}
    (hnodup : ((p ++ c :: q).map f).Nodup) :
    ((p ++ c :: q).map f).filter (· ≠ f c) = (p ++ q).map f := by
  rw [map_append, map_cons, nodup_middle, nodup_cons] at hnodup
  have hne : ∀ x ∈ p.map f ++ q.map f, x ≠ f c := fun x hx heq => hnodup.1 (heq ▸ hx)
  rw [map_append, map_cons, map_append, filter_append,
    filter_cons_of_neg (by simp),
    filter_eq_self.mpr fun x hx => by simpa using hne x (mem_append_left _ hx),
    filter_eq_self.mpr fun x hx => by simpa using hne x (mem_append_right _ hx)]

theorem ProcInv.nodup_pids (h : ProcInv i es t l) : (l.map t.pid).Nodup := by
  rw [h.pids]
  exact h.distinct.filter _

theorem ProcInv.pid_inj (h : ProcInv i es t l) {b : ℕ} {p' : ProcessT} (ha : t.info a = some p)
    (hb : t.info b = some p') (heq : p.pid = p'.pid) : a = b := by
  refine inj_on_of_nodup_map h.nodup_pids (h.mem ha) (h.mem hb) ?_
  rw [ProcTable.pid_eq ha, ProcTable.pid_eq hb, heq]

theorem exitCode_eq (status : ℤ) : exitCode status = (status % 256).toNat * 256 := by
  have hlt : (status % 256).toNat < 2 ^ 8 := by omega
  have hmask : (0xFF00 : ℕ) = (2 ^ 8 - 1) <<< 8 := by decide
  rw [exitCode, hmask, ← Nat.shiftLeft_and_distrib, Nat.and_two_pow_sub_one_eq_mod,
    Nat.mod_eq_of_lt hlt, Nat.shiftLeft_eq]

variable {caller : ProcessT} {pid arg : ℤ} {mainThread child code : ℕ}

section
variable (h : ProcInv i es t l) (hcur : t.procs cur = some caller)
include h hcur

theorem ProcInv.fork (ha : t.procs a = none) (hcall : sysFork t cur a mainThread = .ok (pid, t')) :
    ProcInv i (es ++ [.fork caller.pid pid]) t' (l ++ [a]) := by
  have hcurl : cur ∈ l := (h.listed.alloc cur).mpr (by simp [hcur])
  have hpid := nextPid_of_fork hcall
  obtain ⟨_, hcall1, hlisted, hinit, hnext, hinfo⟩ :=
    sysFork_spec h.listed ha (ne_nil_of_mem hcurl) hpid cur mainThread
  cases hcall.symm.trans hcall1
  have hfresh := h.fresh
  have hanone : t.info a = none := info_eq_none.mpr ha
  have hold : ∀ b ≠ a, t'.info b = t.info b := fun b hb => by rw [hinfo, update_of_ne hb]
  have hnew : t'.info a = some ⟨t.nextPid, 0, .running, mainThread, some cur, none⟩ := by
    rw [hinfo, update_self]
  have hla : ∀ b ∈ l, b ≠ a := fun b hb heq => (h.listed.alloc b).mp hb (heq ▸ ha)
  have hexit : ∀ pid status, .exit pid status ∈ es ++ [.fork caller.pid t.nextPid] ↔
      ProcEvent.exit pid status ∈ es := by simp
  refine ⟨hlisted, ?_, ?_, ?_, ?_, ?_, ?_, ?_, ?_⟩
  · obtain ⟨hi, p, hp, hparent⟩ := h.first
    have hia : i ≠ a := by
      rintro rfl
      cases hanone.symm.trans hp
    exact ⟨hinit.trans hi, p, (hold i hia).trans hp, hparent⟩
  · intro b p hb hne
    by_cases hba : b = a
    · subst hba
      cases hnew.symm.trans hb
      exact ⟨cur, by simp [hcurl], rfl⟩
    · obtain ⟨c, hc, hparent⟩ := h.parents b p ((hold b hba).symm.trans hb) (hinit ▸ hne)
      exact ⟨c, by simp [hc], hparent⟩
  · have hmap : l.map t'.pid = l.map t.pid := map_congr_left fun b hb => by
      rw [ProcTable.pid, ProcTable.pid, hold b (hla b hb)]
    have hlive : t.nextPid ∉ reapedPids es := fun hmem => hfresh (h.origin _ hmem)
    rw [map_append, hmap, h.pids]
    simp [livePids, ProcTable.pid_eq hnew, hlive]
  · obtain ⟨n, hn, hpids⟩ := h.created
    exact ⟨n + 1, by rw [hnext, hn, Nat.cast_succ], by simp [hpids, hn, range_succ]⟩
  · simpa using h.once
  · exact fun pid hmem => createdPids_mono (h.origin pid (by simpa using hmem))
  · exact fun pid status hmem => createdPids_mono (h.exited pid status ((hexit ..).mp hmem))
  · intro b p hb
    by_cases hba : b = a
    · subst hba
      cases hnew.symm.trans hb
      exact ⟨fun _ status hmem => hfresh (h.exited _ status ((hexit ..).mp hmem)), nofun⟩
    · simpa only [Told, hexit] using h.told b p ((hold b hba).symm.trans hb)

theorem ProcInv.exit {status : ℤ} (hrun : caller.status = .running)
    (hcall : sysExit t cur status = .ok t') : ProcInv i (es ++ [.exit caller.pid status]) t' l := by
  obtain ⟨_, hcall1, hlisted, hinit, hnext, hinfo⟩ := sysExit_spec h.listed hcur status
  cases hcall1.symm.trans hcall
  have hcuri := ProcTable.info_eq hcur
  set p' : ProcessT :=
    { caller.unlinked with exitStatus := exitCode status, status := .zombie } with hp'
  have hold : ∀ b ≠ cur, t'.info b = t.info b := fun b hb => by
    rw [hinfo, update_of_ne hb]
  have hnew : t'.info cur = some p' := by rw [hinfo, update_self]
  have hpid : t'.pid = t.pid := by
    funext b
    by_cases hb : b = cur
    · subst hb
      rw [ProcTable.pid_eq hnew, ProcTable.pid_eq hcuri]
    · rw [ProcTable.pid, ProcTable.pid, hold b hb]
  have hother : ∀ b p status', b ≠ cur → t.info b = some p →
      (.exit p.pid status' ∈ es ++ [.exit caller.pid status] ↔
        ProcEvent.exit p.pid status' ∈ es) := by
    intro b p status' hb hp
    have hne : p.pid ≠ caller.pid := fun heq => hb (h.pid_inj hp hcuri heq)
    simp [hne]
  refine ⟨hlisted, ?_, ?_, ?_, ?_, ?_, ?_, ?_, ?_⟩
  · obtain ⟨hi, p, hp, hparent⟩ := h.first
    refine ⟨hinit.trans hi, ?_⟩
    by_cases hic : i = cur
    · subst hic
      cases hcuri.symm.trans hp
      exact ⟨p', hnew, hparent⟩
    · exact ⟨p, (hold i hic).trans hp, hparent⟩
  · intro b p hb hne
    by_cases hbc : b = cur
    · subst hbc
      cases hnew.symm.trans hb
      exact h.parents b caller.unlinked hcuri (hinit ▸ hne)
    · exact h.parents b p ((hold b hbc).symm.trans hb) (hinit ▸ hne)
  · simp [hpid, h.pids, livePids]
  · simpa [hnext] using h.created
  · simpa using h.once
  · simpa using h.origin
  · intro pid status' hmem
    apply createdPids_mono
    rcases mem_append.mp hmem with hmem | hmem
    · exact h.exited pid status' hmem
    · obtain ⟨rfl, -⟩ := ProcEvent.exit.inj (mem_singleton.mp hmem)
      exact (h.pid_mem hcuri).1
  · intro b p hb
    by_cases hbc : b = cur
    · subst hbc
      cases hnew.symm.trans hb
      refine ⟨nofun, fun _ => ⟨status, by simp [hp', ProcessT.unlinked], rfl, fun status' hmem => ?_⟩⟩
      rcases mem_append.mp hmem with hmem | hmem
      · exact absurd hmem ((h.told b _ hcuri).1 hrun status')
      · exact (ProcEvent.exit.inj (mem_singleton.mp hmem)).2
    · have hb' := (hold b hbc).symm.trans hb
      simpa only [Told, hother b p _ hbc hb'] using h.told b p hb'

end

theorem sysWaitpid_reaped (h : Listed t l)
    (hcall : sysWaitpid t cur arg = .ok (.reaped child pid code t')) :
    ∃ p, t.procs child = some p ∧ Reapable cur arg p ∧ pid = p.pid ∧ code = p.exitStatus ∧
      child ∈ l ∧ processFree t child = .ok t' := by
  unfold sysWaitpid at hcall
  split_ifs at hcall with harg
  · cases hcall
  · obtain ⟨found, hscan, hcall⟩ := bind_eq_ok.mp hcall
    cases found with
    | none => cases hcall
    | some a =>
      obtain ⟨pr, hpr, hcall⟩ := bind_eq_ok.mp hcall
      obtain ⟨t1, hfree, hcall⟩ := bind_eq_ok.mp hcall
      obtain ⟨rfl, rfl, rfl, rfl⟩ := WaitOutcome.reaped.inj (Except.ok.inj hcall)
      obtain ⟨hmem, p, hp, hreap⟩ := h.scan hscan
      cases (ProcTable.proc_eq_ok.mp hpr).symm.trans hp
      exact ⟨pr, hp, hreap, rfl, rfl, hmem, hfree⟩

theorem ProcInv.reap (h : ProcInv i es t l) (parent : ℤ)
    (hcall : sysWaitpid t cur arg = .ok (.reaped child pid code t')) :
    ∃ l', ProcInv i (es ++ [.reap parent pid code]) t' l' := by
  obtain ⟨pc, hpc, hreap, rfl, rfl, hmem, hfree⟩ := sysWaitpid_reaped h.listed hcall
  obtain ⟨p, q, rfl⟩ := append_of_mem hmem
  obtain ⟨_, hfree1, hlisted, hinit, hnext, hinfo⟩ := processFree_spec h.listed
  cases hfree1.symm.trans hfree
  have hchild := ProcTable.info_eq hpc
  obtain ⟨hi, pi, hpi, hnone⟩ := h.first
  have hic : i ≠ child := by
    rintro rfl
    cases hchild.symm.trans hpi
    cases hnone.symm.trans hreap.2.1
  have hold : ∀ b p1, t'.info b = some p1 → b ≠ child ∧ ∃ p0, t.info b = some p0 ∧
      p1 = reparent child t.initProc p0 := by
    intro b p1 hb
    rw [hinfo b] at hb
    split_ifs at hb with hbc
    obtain ⟨p0, hp0, heq⟩ := Option.map_eq_some_iff.mp hb
    exact ⟨hbc, p0, hp0, heq.symm⟩
  have hkeep : ∀ b ≠ child, t'.pid b = t.pid b := by
    intro b hb
    rw [ProcTable.pid, ProcTable.pid, hinfo b, if_neg hb]
    cases t.info b with
    | none => rfl
    | some p0 => simp
  have hexit : ∀ pid status, .exit pid status ∈ es ++ [.reap parent pc.pid pc.exitStatus] ↔
      ProcEvent.exit pid status ∈ es := by simp
  have hnot : child ∉ p ++ q := (nodup_cons.mp (nodup_middle.mp h.listed.visits.nodup)).1
  refine ⟨p ++ q, hlisted, ?_, ?_, ?_, ?_, ?_, ?_, ?_, ?_⟩
  · refine ⟨hinit.trans hi, pi, ?_, hnone⟩
    rw [hinfo i, if_neg hic, hpi]
    simp [reparent, hnone]
  · intro b p1 hb hne
    obtain ⟨hbc, p0, hp0, rfl⟩ := hold b p1 hb
    obtain ⟨c, hc, hparent⟩ := h.parents b p0 hp0 (hinit ▸ hne)
    by_cases hcc : c = child
    · subst hcc
      refine ⟨i, ?_, by simp [reparent, hparent, hi]⟩
      have hmem := h.mem hpi
      rw [perm_middle.mem_iff, mem_cons] at hmem
      exact hmem.resolve_left hic
    · refine ⟨c, ?_, by simp [reparent, hparent, hcc]⟩
      rw [perm_middle.mem_iff, mem_cons] at hc
      exact hc.resolve_left hcc
  · have hmap : (p ++ q).map t'.pid = (p ++ q).map t.pid :=
      map_congr_left fun b hb => hkeep b fun heq => hnot (heq ▸ hb)
    have hpid : pc.pid = t.pid child := (ProcTable.pid_eq hchild).symm
    rw [hmap, livePids_reap, ← h.pids, hpid, filter_map_ne h.nodup_pids]
  · simpa [hnext] using h.created
  · rw [reapedPids_concat]
    exact h.once.append (nodup_singleton _) (disjoint_singleton.mpr (h.pid_mem hchild).2)
  · intro pid hmem
    apply createdPids_mono
    rw [reapedPids_concat] at hmem
    rcases mem_append.mp hmem with hmem | hmem
    · exact h.origin pid hmem
    · obtain rfl := mem_singleton.mp hmem
      exact (h.pid_mem hchild).1
  · exact fun pid status hmem => createdPids_mono (h.exited pid status ((hexit ..).mp hmem))
  · intro b p1 hb
    obtain ⟨hbc, p0, hp0, rfl⟩ := hold b p1 hb
    simpa [Told, hexit] using h.told b p0 hp0

theorem ProcInv.step (h : ProcInv i es t l) (hstep : ProcStep t e t') :
    ∃ l', ProcInv i (es ++ [e]) t' l' := by
  cases hstep with
  | fork mainThread hcur hrun ha hcall => exact ⟨_, h.fork hcur ha hcall⟩
  | exit status hcur hrun hcall => exact ⟨_, h.exit hcur hrun hcall⟩
  | waitpid arg hcur hrun hcall => exact h.reap _ hcall

theorem processCreateInit_eq (mainThread : ℕ) : processCreateInit a mainThread =
    .ok ⟨Function.update (fun _ => none) a (some ⟨1, 0, .running, mainThread, none, none⟩), some a,
      some a, some a, 2⟩ := rfl

theorem procInv_init (h : processCreateInit a mainThread = .ok t) : ProcInv a [] t [a] := by
  cases (processCreateInit_eq mainThread).symm.trans h
  have hinfo : ∀ b p, ((update (fun _ => none) a
      (some ⟨1, 0, .running, mainThread, none, none⟩) : ℕ → Option ProcessT) b).map
        ProcessT.unlinked = some p → b = a ∧ p = ⟨1, 0, .running, mainThread, none, none⟩ := by
    intro b p hb
    by_cases hba : b = a
    · subst hba
      rw [update_self] at hb
      exact ⟨rfl, (Option.some.inj hb).symm⟩
    · simp [hba] at hb
  refine ⟨⟨?_, rfl, ?_, by simp⟩, ⟨rfl, ?_⟩, ?_, ?_, ⟨1, rfl, rfl⟩, ?_, ?_, ?_, ?_⟩
  · simp [ProcTable.next]
  · intro b
    by_cases hba : b = a
    all_goals simp [hba]
  · simp [ProcTable.info, ProcessT.unlinked]
  · intro b p hb hne
    exact absurd (congrArg some (hinfo b p hb).1.symm) hne
  · simp [ProcTable.pid, ProcTable.info, ProcessT.unlinked, livePids, createdPids, reapedPids]
  · simp [reapedPids]
  · simp [reapedPids]
  · simp
  · intro b p hb
    simp [Told, (hinfo b p hb).2]

end Steps

/-- The process list after the events `es`: the processes that were created and not reaped, and each
but the first one with its parent in the list. -/
structure ProcessList (es : List ProcEvent) (t : ProcTable) (l : List ℕ) : Prop where
  visits : Visits t.next t.processList l
  last : t.processListLast = l.getLast?
  pids : l.map t.pid = livePids es
  first : ∀ i, t.initProc = some i → i ∈ l
  parents : ∀ b ∈ l, t.initProc ≠ some b → ∃ p c, t.procs b = some p ∧ p.parent = some c ∧ c ∈ l

/-- What a successful `sys_waitpid` of the process `cur` returns: the pid of a zombie child that was
not returned before, and the low byte of what the child passed to `sys_exit`, shifted. -/
def ReapsChild (es : List ProcEvent) (t : ProcTable) (cur child : ℕ) (pid : ℤ) (code : ℕ) : Prop :=
  ∃ p status, t.procs child = some p ∧ p.status = .zombie ∧ p.parent = some cur ∧ p.pid = pid ∧
    pid ∉ reapedPids es ∧ ProcEvent.exit pid status ∈ es ∧
    (∀ status', ProcEvent.exit pid status' ∈ es → status' = status) ∧
    code = (status % 256).toNat * 256

/-- No call is stopped by a bad pointer or a loop without end; `sys_fork` needs a pid, and the last
one is not given out. -/
structure CallsReturn (es : List ProcEvent) (t : ProcTable) : Prop where
  fork : (createdPids es).length < 2 ^ 31 - 2 → ∀ cur a mainThread, t.procs a = none →
    ∃ r, sysFork t cur a mainThread = .ok r
  exit : ∀ cur, t.procs cur ≠ none → ∀ status, ∃ t', sysExit t cur status = .ok t'
  waitpid : ∀ cur arg, ∃ r, sysWaitpid t cur arg = .ok r

section Contract
variable {es : List ProcEvent} {t t0 : ProcTable} {l : List ℕ} {i a mainThread : ℕ}

theorem procInv_of_run (hinit : processCreateInit a mainThread = .ok t0)
    (hrun : Trace ProcStep t0 es t) : ∃ l, ProcInv a es t l :=
  Trace.history (fun es t => ∃ l, ProcInv a es t l) (fun _ _ _ _ ⟨_, h⟩ hstep => h.step hstep)
    ⟨[a], procInv_init hinit⟩ hrun

theorem ProcInv.processList (h : ProcInv i es t l) : ProcessList es t l where
  visits := h.listed.visits
  last := h.listed.last
  pids := h.pids
  first := by
    intro j hj
    obtain ⟨hi, p, hp, -⟩ := h.first
    cases hi.symm.trans hj
    exact h.mem hp
  parents := by
    intro b hb hne
    obtain ⟨p, hp⟩ := h.listed.exists_proc hb
    obtain ⟨c, hc, hparent⟩ := h.parents b _ (ProcTable.info_eq hp) hne
    exact ⟨p, c, hp, hparent, hc⟩

theorem ProcInv.reapsChild (h : ProcInv i es t l) {cur child code : ℕ} {arg pid : ℤ}
    {t' : ProcTable} (hcall : sysWaitpid t cur arg = .ok (.reaped child pid code t')) :
    ReapsChild es t cur child pid code := by
  obtain ⟨p, hp, ⟨hz, hparent, -⟩, rfl, rfl, -, -⟩ := sysWaitpid_reaped h.listed hcall
  have hinfo := ProcTable.info_eq hp
  obtain ⟨status, hmem, hcode, huniq⟩ := (h.told child _ hinfo).2 hz
  exact ⟨p, status, hp, hz, hparent, rfl, (h.pid_mem hinfo).2, hmem, huniq,
    hcode.trans (exitCode_eq status)⟩

theorem ProcInv.callsReturn (h : ProcInv i es t l) : CallsReturn es t where
  fork := by
    intro hforks cur a mainThread ha
    obtain ⟨-, p, hp, -⟩ := h.first
    have hpid : t.nextPid ≠ 2 ^ 31 - 1 := by
      obtain ⟨n, hn, hpids⟩ := h.created
      rw [hpids, length_map, length_range] at hforks
      omega
    obtain ⟨t', hcall, -⟩ := sysFork_spec h.listed ha (ne_nil_of_mem (h.mem hp)) hpid cur
      mainThread
    exact ⟨_, hcall⟩
  exit := by
    intro cur hcur status
    obtain ⟨p, hp⟩ := Option.ne_none_iff_exists'.mp hcur
    obtain ⟨t', hcall, -⟩ := sysExit_spec h.listed hp status
    exact ⟨t', hcall⟩
  waitpid := by
    intro cur arg
    unfold sysWaitpid
    split_ifs with harg
    · exact ⟨_, rfl⟩
    · obtain ⟨r, hscan⟩ := h.listed.scan_returns cur arg
      rw [hscan, ok_bind]
      cases r with
      | none => exact ⟨_, rfl⟩
      | some child =>
        obtain ⟨hmem, p, hp, -⟩ := h.listed.scan hscan
        obtain ⟨pre, post, rfl⟩ := append_of_mem hmem
        obtain ⟨t', hfree, -⟩ := processFree_spec h.listed
        simp only [ProcTable.proc_eq_ok.mpr hp, ok_bind, hfree]
        exact ⟨_, rfl⟩

/-- The process table in every run of the calls from the first process on. -/
theorem process_table (hinit : processCreateInit a mainThread = .ok t0)
    (hrun : Trace ProcStep t0 es t) :
    t.initProc = some a ∧ (∃ l, ProcessList es t l) ∧ (createdPids es).Nodup ∧
      (reapedPids es).Nodup ∧ CallsReturn es t ∧
      ∀ cur arg child pid code t', sysWaitpid t cur arg = .ok (.reaped child pid code t') →
        ReapsChild es t cur child pid code := by
  obtain ⟨l, h⟩ := procInv_of_run hinit hrun
  exact ⟨h.first.1, ⟨l, h.processList⟩, h.distinct, h.once, h.callsReturn,
    fun _ _ _ _ _ _ hcall => h.reapsChild hcall⟩

/-- The first process forks, the child exits with 7, and its parent gets 7 shifted by a byte. -/
theorem process_table_one_child : ∃ t0 t t',
    processCreateInit 1000 100 = .ok t0 ∧ Trace ProcStep t0 [.fork 1 2, .exit 2 7] t ∧
    sysWaitpid t 1000 (-1) = .ok (.reaped 2000 2 1792 t') ∧
    ReapsChild [.fork 1 2, .exit 2 7] t 1000 2000 2 1792 := by
  obtain ⟨t0, t, t', h0, hrun, hcall⟩ : ∃ t0 t t',
      processCreateInit 1000 100 = .ok t0 ∧ Trace ProcStep t0 [.fork 1 2, .exit 2 7] t ∧
      sysWaitpid t 1000 (-1) = .ok (.reaped 2000 2 1792 t') :=
    ⟨_, _, _, rfl,
      ⟨_, @ProcStep.fork _ _ 1000 2000 ⟨1, 0, .running, 100, none, none⟩ 2 200 rfl rfl rfl rfl,
      _, @ProcStep.exit _ _ 2000 ⟨2, 0, .running, 200, some 1000, none⟩ 7 rfl rfl rfl, rfl⟩, rfl⟩
  obtain ⟨-, -, -, -, -, hreaps⟩ := process_table h0 hrun
  exact ⟨t0, t, t', h0, hrun, hcall, hreaps _ _ _ _ _ _ hcall⟩

end Contract

end GarnOS
