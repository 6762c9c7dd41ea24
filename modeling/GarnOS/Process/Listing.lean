import GarnOS.Process.Table

/-! Which processes are in the process list, and what each system call does to them. -/
namespace GarnOS
open Function Chain Outcome List Nat

def ProcessT.unlinked (p : ProcessT) : ProcessT := { p with next := none }

/-- What is known of the process at `a` besides its link. -/
def ProcTable.info (t : ProcTable) (a : ℕ) : Option ProcessT := (t.procs a).map ProcessT.unlinked

/-- The list goes through the processes of `l`, which are the allocated ones. -/
structure Listed (t : ProcTable) (l : List ℕ) : Prop where
  visits : Visits t.next t.processList l
  last : t.processListLast = l.getLast?
  alloc : ∀ a, a ∈ l ↔ t.procs a ≠ none
  room : (l.length : ℤ) < t.nextPid

section Walks
variable {t : ProcTable} {l p q z : List ℕ} {a n : ℕ} {h : Option ℕ} {pr pr' : ProcessT}

theorem ProcTable.proc_eq_ok : t.proc (some a) = .ok pr ↔ t.procs a = some pr := by
  unfold ProcTable.proc
  dsimp only
  split <;> simp_all

theorem Listed.exists_proc (h : Listed t l) (ha : a ∈ l) : ∃ pr, t.procs a = some pr :=
  Option.ne_none_iff_exists'.mp ((h.alloc a).mp ha)

theorem Listed.fuel_eq (h : Listed t l) : l.length < t.fuel := by
  have hroom := h.room
  unfold ProcTable.fuel
  omega

theorem ProcTable.next_eq (ha : t.procs a = some pr) : t.next a = pr.next := by
  rw [ProcTable.next, ha, Option.bind_some]

theorem ProcTable.next_set (ha : t.procs a = some pr) (hnext : pr'.next = pr.next) :
    (t.set a pr').next = t.next := by
  funext b
  by_cases hb : b = a
  · simp [ProcTable.next, ProcTable.set, hb, ha, hnext]
  · simp [ProcTable.next, ProcTable.set, hb]

theorem processFindFrom_eq (hv : Visits t.next h (p ++ a :: q))
    (halloc : ∀ b ∈ p, t.procs b ≠ none) (hn : p.length < n) :
    processFindFrom t a n z.getLast? h = .ok (some (z ++ p).getLast?) := by
  induction p generalizing h z n with
  | nil =>
    obtain ⟨n, rfl⟩ := exists_eq_succ_of_ne_zero (ne_of_gt hn)
    obtain ⟨rfl, -⟩ := hv
    simp [processFindFrom]
  | cons b p ih =>
    obtain ⟨n, rfl⟩ := exists_eq_succ_of_ne_zero (ne_zero_of_lt hn)
    have hba : b ≠ a := fun heq => (nodup_cons.mp hv.nodup).1 (by simp [heq])
    obtain ⟨pr, hpr⟩ := Option.ne_none_iff_exists'.mp (halloc b (by simp))
    obtain ⟨rfl, hrest⟩ := hv
    rw [ProcTable.next_eq hpr] at hrest
    have hfound := ih (z := z ++ [b]) hrest (fun c hc => halloc c (by simp [hc]))
      (lt_of_succ_lt_succ hn)
    rw [getLast?_concat, append_assoc] at hfound
    simp only [processFindFrom, if_neg hba, ProcTable.proc_eq_ok.mpr hpr, ok_bind]
    exact hfound

theorem Listed.find (h : Listed t (p ++ a :: q)) :
    processFindFrom t a t.fuel none t.processList = .ok (some p.getLast?) := by
  have hfuel := h.fuel_eq
  rw [length_append] at hfuel
  exact processFindFrom_eq (z := []) h.visits (fun b hb => (h.alloc b).mp (by simp [hb]))
    (by omega)

end Walks

section Calls
variable {t t' : ProcTable} {l p q : List ℕ} {a b cur mainThread : ℕ} {pr : ProcessT} {pid : ℤ}

theorem Listed.set (h : Listed t l) (ha : t.procs a = some pr) {pr' : ProcessT}
    (hnext : pr'.next = pr.next) : Listed (t.set a pr') l := by
  refine ⟨?_, h.last, fun b => ?_, h.room⟩
  · rw [ProcTable.next_set ha hnext]
    exact h.visits
  · rw [h.alloc b]
    by_cases hb : b = a
    · simp [ProcTable.set, hb, ha]
    · simp [ProcTable.set, hb]

theorem info_set : (t.set a pr).info = update t.info a (some pr.unlinked) := by
  funext b
  by_cases hb : b = a
  all_goals simp [ProcTable.info, ProcTable.set, hb]

theorem info_set_self : (t.set a pr).info a = some pr.unlinked := by
  rw [info_set, update_self]

theorem info_set_of_ne (h : b ≠ a) : (t.set a pr).info b = t.info b := by
  rw [info_set, update_of_ne h]

theorem processTerminate_eq (h : Listed t l) (ha : t.procs a = some pr) :
    processTerminate t a = .ok (t.set a { pr with status := .zombie }) := by
  obtain ⟨p, q, rfl⟩ := append_of_mem ((h.alloc a).mpr (by simp [ha]))
  unfold processTerminate
  rw [h.find, ok_bind]
  simp only [ProcTable.proc_eq_ok.mpr ha, ok_bind]
  rfl

theorem sysExit_spec (h : Listed t l) (ha : t.procs cur = some pr) (status : ℤ) :
    ∃ t', sysExit t cur status = .ok t' ∧ Listed t' l ∧ t'.initProc = t.initProc ∧
      t'.nextPid = t.nextPid ∧ t'.info = update t.info cur
        (some { pr.unlinked with exitStatus := exitCode status, status := .zombie }) := by
  set stored : ProcessT := { pr with exitStatus := exitCode status }
  have h1 : Listed (t.set cur stored) l := h.set ha rfl
  have ha1 : (t.set cur stored).procs cur = some stored := update_self ..
  have h2 : Listed ((t.set cur stored).set cur { stored with status := .zombie }) l :=
    h1.set ha1 rfl
  refine ⟨_, ?_, h2, rfl, rfl, ?_⟩
  · unfold sysExit
    rw [ProcTable.proc_eq_ok.mpr ha, ok_bind]
    exact processTerminate_eq h1 ha1
  · rw [info_set, info_set, update_idem]
    rfl

theorem processGenPid_eq (hpid : t.nextPid ≠ 2 ^ 31 - 1) :
    processGenPid t = .ok (t.nextPid, { t with nextPid := t.nextPid + 1 }) := if_neg hpid

theorem nextPid_of_fork {r : ℤ × ProcTable} (h : sysFork t cur a mainThread = .ok r) :
    t.nextPid ≠ 2 ^ 31 - 1 := by
  intro heq
  simp [sysFork, processGenPid, heq] at h

theorem sysFork_eq {last : ℕ} (hpid : t.nextPid ≠ 2 ^ 31 - 1)
    (hlast : t.processListLast = some last)
    (hne : last ≠ a) (hl : t.procs last = some pr) :
    sysFork t cur a mainThread = .ok (t.nextPid,
      { procs := update (update t.procs a
          (some ⟨t.nextPid, 0, .running, mainThread, some cur, none⟩)) last
          (some { pr with next := some a })
        processList := t.processList
        processListLast := some a
        initProc := t.initProc
        nextPid := t.nextPid + 1 }) := by
  simp only [sysFork, processGenPid_eq hpid, ok_bind, ProcTable.set, hlast, ProcTable.proc,
    update_of_ne hne, hl]
  rfl

theorem sysFork_spec (h : Listed t l) (ha : t.procs a = none) (hne : l ≠ [])
    (hpid : t.nextPid ≠ 2 ^ 31 - 1) (cur mainThread : ℕ) :
    ∃ t', sysFork t cur a mainThread = .ok (t.nextPid, t') ∧ Listed t' (l ++ [a]) ∧
      t'.initProc = t.initProc ∧ t'.nextPid = t.nextPid + 1 ∧
      t'.info = update t.info a
        (some ⟨t.nextPid, 0, .running, mainThread, some cur, none⟩) := by
  obtain ⟨ys, last, rfl⟩ := (eq_nil_or_concat' l).resolve_left hne
  have hanot : a ∉ ys ++ [last] := fun hmem => (h.alloc a).mp hmem ha
  have hla : last ≠ a := fun heq => hanot (by simp [heq])
  obtain ⟨pr, hpr⟩ := h.exists_proc (a := last) (by simp)
  refine ⟨_, sysFork_eq hpid (by rw [h.last]; simp) hla hpr, ?_, rfl, rfl, ?_⟩
  · refine ⟨?_, by simp, fun b => ?_, ?_⟩
    · rw [append_assoc]
      refine h.visits.cut (fun x hx => ?_) (by simp [ProcTable.next])
        (by simp [ProcTable.next, hla.symm])
      have hxl : x ≠ last := fun heq => disjoint_of_nodup_append h.visits.nodup hx (by simp [heq])
      have hxa : x ≠ a := fun heq => hanot (by simp [← heq, hx])
      simp [ProcTable.next, hxl, hxa]
    · rw [mem_append, h.alloc b, mem_singleton]
      by_cases hba : b = a
      · simp [hba, update_of_ne hla.symm]
      · by_cases hbl : b = last
        · simp [hbl, hpr]
        · simp [hba, hbl]
    · have hroom := h.room
      rw [length_append]
      simp only [length_singleton]
      omega
  · funext b
    simp only [ProcTable.info, update_apply]
    split_ifs with hbl hba hba
    · exact absurd (hbl.symm.trans hba) hla
    · simp [hbl, hpr, ProcessT.unlinked]
    · rfl
    · rfl

/-- The child of `a` becomes a child of the first process. -/
def reparent (a : ℕ) (initProc : Option ℕ) (pr : ProcessT) : ProcessT :=
  if pr.parent = some a then { pr with parent := initProc } else pr

section
variable (i : Option ℕ)
include i

theorem reparent_next : (reparent a i pr).next = pr.next := by
  unfold reparent
  split_ifs <;> rfl

@[simp] theorem reparent_pid : (reparent a i pr).pid = pr.pid := by
  unfold reparent
  split_ifs <;> rfl

@[simp] theorem reparent_status : (reparent a i pr).status = pr.status := by
  unfold reparent
  split_ifs <;> rfl

@[simp] theorem reparent_exitStatus : (reparent a i pr).exitStatus = pr.exitStatus := by
  unfold reparent
  split_ifs <;> rfl

@[simp] theorem reparent_mainThread : (reparent a i pr).mainThread = pr.mainThread := by
  unfold reparent
  split_ifs <;> rfl

theorem reparent_of_ne (h : pr.parent ≠ some a) : reparent a i pr = pr := if_neg h

theorem unlinked_reparent : (reparent a i pr).unlinked = reparent a i pr.unlinked := by
  by_cases hp : pr.parent = some a
  all_goals simp [reparent, ProcessT.unlinked, hp]

end

theorem reparentFrom_spec {n : ℕ} {h : Option ℕ} (hv : Visits t.next h q)
    (halloc : ∀ b ∈ q, t.procs b ≠ none) (hn : q.length < n) :
    ∃ procs, reparentFrom a n t h = .ok { t with procs } ∧
      ∀ b, procs b = if b ∈ q then (t.procs b).map (reparent a t.initProc) else t.procs b := by
  induction q generalizing t n h with
  | nil =>
    obtain ⟨n, rfl⟩ := exists_eq_succ_of_ne_zero (ne_of_gt hn)
    obtain rfl := visits_nil.mp hv
    exact ⟨t.procs, rfl, by simp⟩
  | cons c q ih =>
    obtain ⟨n, rfl⟩ := exists_eq_succ_of_ne_zero (ne_zero_of_lt hn)
    obtain ⟨pr, hpr⟩ := Option.ne_none_iff_exists'.mp (halloc c (by simp))
    have hcq : c ∉ q := (nodup_cons.mp hv.nodup).1
    -- the table after this round, whether or not there was something to store
    set t1 : ProcTable := t.set c (reparent a t.initProc pr) with ht1
    have hstored : (if pr.parent = some a then t.set c { pr with parent := t.initProc } else t) =
        t1 := by
      rw [ht1, reparent]
      split_ifs
      · rfl
      · simp [ProcTable.set, ← hpr]
    have hold : ∀ b ≠ c, t1.procs b = t.procs b := fun b hb => update_of_ne hb ..
    have hne : ∀ b ∈ q, b ≠ c := fun b hb heq => hcq (heq ▸ hb)
    obtain ⟨rfl, htail⟩ := hv
    have hrest : Visits t1.next pr.next q := by
      rwa [ht1, ProcTable.next_set hpr (reparent_next _), ← ProcTable.next_eq hpr]
    obtain ⟨procs, hcall, hprocs⟩ := ih hrest (fun b hb => by
      rw [hold b (hne b hb)]
      exact halloc b (by simp [hb])) (lt_of_succ_lt_succ hn)
    refine ⟨procs, ?_, fun b => ?_⟩
    · simp only [reparentFrom, ProcTable.proc_eq_ok.mpr hpr, ok_bind]
      rw [hstored]
      exact hcall
    · rw [hprocs b]
      by_cases hb : b = c
      · have hc : t1.procs c = some (reparent a t.initProc pr) := update_self ..
        simp [hb, hcq, hc, hpr]
      · simp [hb, hold b hb]
        rfl

theorem processUnlink_head : processUnlink t none a pr =
    .ok { t with processListLast := if t.processListLast = some a then none else t.processListLast
                 processList := if t.processList = some a then pr.next else t.processList } := rfl

theorem processUnlink_after {pb : ProcessT} (hb : t.procs b = some pb) :
    processUnlink t (some b) a pr = .ok { t.set b { pb with next := pr.next } with
      processListLast := if t.processListLast = some a then some b else t.processListLast
      processList := if t.processList = some a then pr.next else t.processList } := by
  simp only [processUnlink, ProcTable.proc_eq_ok.mpr hb, ok_bind]
  rfl

theorem processUnlink_spec (h : Listed t (p ++ a :: q)) (ha : t.procs a = some pr) :
    ∃ t', processUnlink t p.getLast? a pr = .ok t' ∧ Visits t'.next t'.processList (p ++ q) ∧
      t'.processListLast = (p ++ q).getLast? ∧ t'.info = t.info ∧ t'.initProc = t.initProc ∧
      t'.nextPid = t.nextPid := by
  have hnext : t.next a = pr.next := by simp [ProcTable.next, ha]
  have hhead : (if t.processList = some a then pr.next else t.processList) =
      if p = [] then t.next a else t.processList := hnext ▸ h.visits.head_remove
  rcases eq_nil_or_concat' p with rfl | ⟨ys, b, rfl⟩
  · refine ⟨_, processUnlink_head, ?_, ?_, rfl, rfl, rfl⟩
    · rw [hhead]
      exact h.visits.remove (fun _ _ _ => rfl) (by simp)
    · rw [← getLast?_remove h.visits.nodup, h.last]
      rfl
  · obtain ⟨pb, hpb⟩ := h.exists_proc (a := b) (by simp)
    have hlast : (ys ++ [b]).getLast? = some b := by simp
    rw [hlast]
    refine ⟨_, processUnlink_after hpb, ?_, ?_, ?_, rfl, rfl⟩
    · rw [hhead]
      apply h.visits.remove
      · intro x _ hx
        have hxb : x ≠ b := fun heq => hx (by simp [heq])
        simp [ProcTable.next, ProcTable.set, hxb]
      · intro x hx
        have hxb : x = b := by simpa using hx.symm
        simp [ProcTable.next, ProcTable.set, hxb, ha]
    · rw [← getLast?_remove h.visits.nodup, h.last, hlast]
    · refine Eq.trans info_set ?_
      have hb : t.info b = some pb.unlinked := by simp [ProcTable.info, hpb]
      exact (update_eq_self_iff ..).mpr hb.symm

theorem info_eq_none : t.info a = none ↔ t.procs a = none := Option.map_eq_none_iff

theorem processFree_spec (h : Listed t (p ++ a :: q)) :
    ∃ t', processFree t a = .ok t' ∧ Listed t' (p ++ q) ∧ t'.initProc = t.initProc ∧
      t'.nextPid = t.nextPid ∧
      ∀ b, t'.info b = if b = a then none else (t.info b).map (reparent a t.initProc) := by
  obtain ⟨pr, ha⟩ := h.exists_proc (a := a) (by simp)
  obtain ⟨t1, hunlink, hv1, hlast1, hinfo1, hinit1, hpid1⟩ := processUnlink_spec h ha
  have hmem : ∀ b, b ∈ p ++ q → b ∈ p ++ a :: q := fun b hb =>
    perm_middle.mem_iff.mpr (mem_cons_of_mem _ hb)
  have hnot : a ∉ p ++ q := (nodup_cons.mp (nodup_middle.mp h.visits.nodup)).1
  have halloc1 : ∀ b, t1.procs b = none ↔ t.procs b = none := by
    intro b
    rw [← info_eq_none, ← info_eq_none, hinfo1]
  have hroom : ((p ++ q).length : ℤ) < t.nextPid := by
    have hr := h.room
    simp only [length_append, length_cons] at hr ⊢
    omega
  have hfuel : (p ++ q).length < t1.fuel := by
    unfold ProcTable.fuel
    rw [hpid1]
    omega
  obtain ⟨procs, hrep, hprocs⟩ := reparentFrom_spec (a := a) hv1
    (fun b hb hnone => (h.alloc b).mp (hmem b hb) ((halloc1 b).mp hnone)) hfuel
  refine ⟨{ t1 with procs := update procs a none }, ?_, ⟨?_, hlast1, ?_, ?_⟩,
    hinit1, hpid1, ?_⟩
  · unfold processFree
    rw [h.find, ok_bind]
    simp only [ProcTable.proc_eq_ok.mpr ha, ok_bind, hunlink]
    rw [hrep]
    rfl
  · refine hv1.congr fun b hb => ?_
    have hba : b ≠ a := fun heq => hnot (heq ▸ hb)
    simp only [ProcTable.next, update_of_ne hba, hprocs b, if_pos hb]
    cases t1.procs b with
    | none => rfl
    | some pb => exact reparent_next _
  · intro b
    by_cases hba : b = a
    · simp [hba, hnot]
    · have hiff : b ∈ p ++ q ↔ t.procs b ≠ none := by
        rw [← h.alloc b]
        simp [hba]
      rw [hiff]
      simp only [ne_eq, update_of_ne hba, hprocs b, ← halloc1 b]
      split_ifs <;> simp
  · simpa [hpid1] using hroom
  · intro b
    by_cases hba : b = a
    · simp [ProcTable.info, hba]
    · rw [if_neg hba, ← hinfo1]
      simp only [ProcTable.info, update_of_ne hba, hprocs b, hinit1]
      by_cases hb : b ∈ p ++ q
      · rw [if_pos hb]
        cases t1.procs b with
        | none => rfl
        | some pb => simp [unlinked_reparent]
      · have hnone : t1.procs b = none := by
          rw [halloc1 b]
          by_contra hne
          have hin := (h.alloc b).mpr hne
          rw [perm_middle.mem_iff, mem_cons] at hin
          exact hb (hin.resolve_left hba)
        simp [hb, hnone]

def Reapable (cur : ℕ) (pid : ℤ) (pr : ProcessT) : Prop :=
  pr.status = .zombie ∧ pr.parent = some cur ∧ (0 < pid → pr.pid = pid)

theorem waitpidScanFrom_spec {n : ℕ} {h : Option ℕ} (hv : Visits t.next h q)
    (halloc : ∀ b ∈ q, t.procs b ≠ none) (hn : q.length < n) (cur : ℕ) (pid : ℤ) :
    waitpidScanFrom t cur pid n h = .ok none ∧
        (∀ a ∈ q, ∀ pr, t.procs a = some pr → ¬Reapable cur pid pr) ∨
      ∃ a ∈ q, ∃ pr, waitpidScanFrom t cur pid n h = .ok (some a) ∧
        t.procs a = some pr ∧ Reapable cur pid pr := by
  induction q generalizing n h with
  | nil =>
    obtain ⟨n, rfl⟩ := exists_eq_succ_of_ne_zero (ne_of_gt hn)
    obtain rfl := visits_nil.mp hv
    exact .inl ⟨rfl, by simp⟩
  | cons c q ih =>
    obtain ⟨n, rfl⟩ := exists_eq_succ_of_ne_zero (ne_zero_of_lt hn)
    obtain ⟨pr, hpr⟩ := Option.ne_none_iff_exists'.mp (halloc c (by simp))
    obtain ⟨rfl, hrest⟩ := hv
    rw [ProcTable.next_eq hpr] at hrest
    simp only [waitpidScanFrom, ProcTable.proc_eq_ok.mpr hpr, ok_bind]
    by_cases hskip : pr.status ≠ .zombie ∨ pr.parent ≠ some cur ∨ (0 < pid ∧ pr.pid ≠ pid)
    · have hnot : ¬Reapable cur pid pr := by
        rintro ⟨h1, h2, h3⟩
        rcases hskip with h | h | ⟨h, h'⟩
        · exact h h1
        · exact h h2
        · exact h' (h3 h)
      rw [if_pos hskip]
      rcases ih hrest (fun b hb => halloc b (by simp [hb])) (lt_of_succ_lt_succ hn) with
        ⟨hcall, hall⟩ | ⟨a, ha, pa, hcall, hpa⟩
      · refine .inl ⟨hcall, ?_⟩
        intro a ha pa hpa
        rcases mem_cons.mp ha with rfl | ha
        · exact Option.some.inj (hpr.symm.trans hpa) ▸ hnot
        · exact hall a ha pa hpa
      · exact .inr ⟨a, by simp [ha], pa, hcall, hpa⟩
    · rw [if_neg hskip]
      push Not at hskip
      exact .inr ⟨c, by simp, pr, rfl, hpr, hskip⟩

theorem Listed.scan_returns (h : Listed t l) (cur : ℕ) (pid : ℤ) :
    ∃ r, waitpidScan t cur pid = .ok r := by
  rcases waitpidScanFrom_spec h.visits (fun b hb => (h.alloc b).mp hb) h.fuel_eq cur pid with
    ⟨hnone, -⟩ | ⟨b, -, pr, hfound, -⟩
  · exact ⟨_, hnone⟩
  · exact ⟨_, hfound⟩

theorem Listed.scan (h : Listed t l) (hcall : waitpidScan t cur pid = .ok (some a)) :
    a ∈ l ∧ ∃ pr, t.procs a = some pr ∧ Reapable cur pid pr := by
  rcases waitpidScanFrom_spec h.visits (fun b hb => (h.alloc b).mp hb) h.fuel_eq cur pid with
    ⟨hnone, -⟩ | ⟨b, hb, pr, hfound, hpr, hreap⟩
  · cases hnone.symm.trans hcall
  · cases hfound.symm.trans hcall
    exact ⟨hb, pr, hpr, hreap⟩

end Calls

end GarnOS
