import GarnOS.Fal.Descriptors
import GarnOS.Fal.VnodeSpec

/-! The tables of file descriptors: what each call does to them, and when a process loses its
table. -/
namespace GarnOS
open Function Outcome Relation List Option

section Slots
variable {s s' : Files} {p t i : ℕ} {x : ProcFds} {fd : Fd} {tab : List Fd}

theorem Files.proc_eq_ok : s.proc p = .ok x ↔ s.fds.get p = some x := by
  unfold Files.proc
  split <;> simp_all

theorem Files.fd_eq_ok : s.fd t i = .ok fd ↔ ∃ tab,
    s.tables.get t = some tab ∧ tab[i]? = some fd := by
  rw [Files.fd, ← bind_eq_some_iff]
  cases (s.tables.get t).bind (·[i]?) with
  | none | some fd' => simp

theorem Files.storeFd_eq_ok {f : Fd → Fd} : s.storeFd t i f = .ok s' ↔
    ∃ tab fd, s.tables.get t = some tab ∧ tab[i]? = some fd ∧
      s' = { s with tables := s.tables.set t (tab.set i (f fd)) } := by
  simp only [Files.storeFd, bind_eq_ok, Files.fd_eq_ok]
  constructor
  · rintro ⟨fd, ⟨tab, htab, hfd⟩, h⟩
    refine ⟨tab, fd, htab, hfd, ?_⟩
    simpa [htab] using (Except.ok.inj h).symm
  · rintro ⟨tab, fd, htab, hfd, rfl⟩
    exact ⟨fd, ⟨tab, htab, hfd⟩, by simp [htab]; rfl⟩

theorem findFdFrom_some {lo n : ℕ} (h : findFdFrom s t lo n = .ok (some i)) :
    i < lo + n ∧ ∃ tab fd, s.tables.get t = some tab ∧ tab[i]? = some fd ∧ fd.file = none := by
  induction n generalizing lo with
  | zero => cases h
  | succ n ih =>
    simp only [findFdFrom, bind_eq_ok, Files.fd_eq_ok] at h
    obtain ⟨fd, ⟨tab, htab, hfd⟩, h⟩ := h
    split at h
    next hfile =>
      obtain rfl : lo = i := some.inj (Except.ok.inj h)
      exact ⟨by omega, tab, fd, htab, hfd, hfile⟩
    next =>
      obtain ⟨hi, hslot⟩ := ih h
      exact ⟨by omega, hslot⟩

theorem findFdFrom_none {lo n : ℕ} (h : findFdFrom s t lo n = .ok none) (hlo : lo ≤ i)
    (hi : i < lo + n) (hfd : s.fd t i = .ok fd) : fd.file ≠ none := by
  induction n generalizing lo with
  | zero => omega
  | succ n ih =>
    obtain ⟨fd', hfd', h⟩ := bind_eq_ok.mp h
    split at h
    next => cases h
    next hfile =>
      obtain rfl | hlt := hlo.eq_or_lt
      · cases hfd.symm.trans hfd'
        exact hfile
      · exact ih h hlt (by omega)

theorem findFdFrom_add {lo m n : ℕ} (htab : s.tables.get t = some tab)
    (hused : ∀ j, lo ≤ j → j < lo + m → ∃ fd, tab[j]? = some fd ∧ fd.file ≠ none) :
    findFdFrom s t lo (m + n) = findFdFrom s t (lo + m) n := by
  induction m generalizing lo with
  | zero => rw [Nat.zero_add, Nat.add_zero]
  | succ m ih =>
    obtain ⟨fd, hfd, hfile⟩ := hused lo le_rfl (by omega)
    have hread : s.fd t lo = .ok fd := Files.fd_eq_ok.mpr ⟨tab, htab, hfd⟩
    rw [show m + 1 + n = m + n + 1 by omega, findFdFrom, hread, ok_bind, if_neg hfile,
      ih fun j hlo hj => hused j (by omega) (by omega), show lo + 1 + m = lo + (m + 1) by omega]

end Slots

section Calls
variable {k : Kmalloc} {h : FdKmalloc} {s s' : Files} {t i cur : ℕ} {x : ProcFds}
  {absPath : Option (List Char)} {flags mode : BitVec 32} {ret : ℤ}

/-- `vnode_open` into the slot, with what it returns as the file. -/
def OpenedInto (k : Kmalloc) (s : Files) (t i : ℕ) (path : List Char) (flags mode : BitVec 32)
    (s' : Files) : Prop :=
  ∃ fal tab fd fd', vnodeOpen k s.fal path flags mode = .ok (fd'.file, fal) ∧
    s.tables.get t = some tab ∧ tab[i]? = some fd ∧
    s' = { s with fal := fal, tables := s.tables.set t (tab.set i fd') }

theorem openInto_cases {path : List Char} {r : Option ℕ}
    (hopen : openInto k s t i path flags mode = .ok (r, s')) :
    ∃ fal tab fd, vnodeOpen k s.fal path flags mode = .ok (r, fal) ∧ s.tables.get t = some tab ∧
      tab[i]? = some fd ∧
      s' = { s with fal := fal, tables := s.tables.set t (tab.set i { fd with file := r }) } := by
  simp only [openInto, bind_eq_ok, Files.storeFd_eq_ok] at hopen
  obtain ⟨⟨r', fal⟩, hvnode, s1, ⟨tab, fd, htab, hfd, rfl⟩, hret⟩ := hopen
  cases hret
  exact ⟨fal, tab, fd, hvnode, htab, hfd, rfl⟩

theorem storeFd_set {tab : List Fd} {fd : Fd} {f : Fd → Fd} (hi : i < tab.length)
    (hstore : ({ s with tables := s.tables.set t (tab.set i fd) } : Files).storeFd t i f = .ok s') :
    s' = { s with tables := s.tables.set t (tab.set i (f fd)) } := by
  obtain ⟨tab', fd', htab', hfd', rfl⟩ := Files.storeFd_eq_ok.mp hstore
  simp only [Objects.set_get, update_self, some.injEq] at htab'
  subst htab'
  rw [getElem?_set_self hi] at hfd'
  cases hfd'
  rw [Objects.set_set, set_set]

theorem sysOpenSlot_cases (hopen : sysOpenSlot k s t i absPath flags mode = .ok (ret, s')) :
    OpenedInto k s t i (absPath.getD []) flags mode s' := by
  obtain ⟨⟨r, s1⟩, hinto, hopen⟩ := bind_eq_ok.mp hopen
  obtain ⟨fal, tab, fd, hvnode, htab, hfd, rfl⟩ := openInto_cases hinto
  have hi : i < tab.length := (List.getElem?_eq_some_iff.mp hfd).1
  cases r with
  | none =>
    cases hopen
    exact ⟨fal, tab, fd, { fd with file := none }, hvnode, htab, hfd, rfl⟩
  | some a =>
    simp only [bind_eq_ok] at hopen
    obtain ⟨offset, -, s2, hfirst, s3, hsecond, hret⟩ := hopen
    cases hret
    obtain rfl := storeFd_set (s := { s with fal := fal }) hi hfirst
    obtain rfl := storeFd_set (s := { s with fal := fal }) hi hsecond
    exact ⟨fal, tab, fd, ⟨some a, 0, flags⟩, hvnode, htab, hfd, rfl⟩

theorem vnodeReallocFdTable_cases {prevSize newSize new : ℕ} (hne : prevSize ≠ newSize)
    (hcall : vnodeReallocFdTable h s t prevSize newSize = .ok (new, s')) :
    new = h.alloc s.tables ∧ ∃ old, s.tables.get t = some old ∧ prevSize ≤ old.length ∧
      s' = { s with tables := (s.tables.set new
        (old.take prevSize ++ List.replicate (newSize - prevSize) .cleared)).free t } := by
  unfold vnodeReallocFdTable at hcall
  rw [if_neg hne] at hcall
  split at hcall
  next => cases hcall
  next old hold =>
    split at hcall
    next => cases hcall
    next hlen =>
      split at hcall
      next => cases hcall
      next =>
        cases hcall
        exact ⟨rfl, old, hold, by omega, rfl⟩

/-- The process has a free slot below `fdMax`, or its table is as large as tables get. -/
def Files.Room (s : Files) (cur : ℕ) : Prop :=
  ∀ x, s.fds.get cur = some x → PROCESS_MAX_FD ≤ x.fdMax + 1 ∨
    ∃ i < x.fdMax, ∃ fd, s.fd x.fdTable i = .ok fd ∧ fd.file = none

/-- A pass that goes back to `findfd` leaves the process with a table that was freed. -/
theorem sysOpenPass_cases {pass : OpenPass}
    (hcall : sysOpenPass k h s cur absPath flags mode = .ok pass) :
    ∃ x, s.fds.get cur = some x ∧ match pass with
      | .returned _ s' => s.Room cur ∧ (s' = s ∨ ∃ i, i < x.fdMax ∧
        (∃ tab fd, s.tables.get x.fdTable = some tab ∧ tab[i]? = some fd ∧ fd.file = none) ∧
        OpenedInto k s x.fdTable i (absPath.getD []) flags mode s')
      | .again s' => ¬s.Room cur ∧ s'.fds.get cur = some ⟨x.fdTable, 2 * x.fdMax + 1⟩ ∧
        s'.tables.get x.fdTable = none := by
  simp only [sysOpenPass, bind_eq_ok, Files.proc_eq_ok] at hcall
  obtain ⟨x, hx, found, hfound, hcall⟩ := hcall
  refine ⟨x, hx, ?_⟩
  cases found with
  | some i =>
    simp only [bind_eq_ok] at hcall
    obtain ⟨⟨ret', s1⟩, hslot, hret⟩ := hcall
    cases hret
    obtain ⟨hi, hfree⟩ := findFdFrom_some hfound
    rw [zero_add] at hi
    refine ⟨fun y hy => .inr ?_, .inr ⟨i, hi, hfree, sysOpenSlot_cases hslot⟩⟩
    cases hx.symm.trans hy
    obtain ⟨tab, fd, htab, hfd, hfile⟩ := hfree
    exact ⟨i, hi, fd, Files.fd_eq_ok.mpr ⟨tab, htab, hfd⟩, hfile⟩
  | none =>
    dsimp only at hcall
    split at hcall
    next hmax =>
      cases hcall
      exact ⟨fun y hy => .inl (some.inj (hx.symm.trans hy) ▸ hmax), .inl rfl⟩
    next hmax =>
      simp only [bind_eq_ok] at hcall
      obtain ⟨⟨new, s1⟩, hrealloc, hret⟩ := hcall
      obtain ⟨-, old, -, -, rfl⟩ := vnodeReallocFdTable_cases (by omega) hrealloc
      cases hret
      refine ⟨fun hroom => ?_, ?_, by simp⟩
      · obtain ⟨j, hj, fd, hfd, hfile⟩ := (hroom x hx).resolve_left hmax
        exact findFdFrom_none hfound (Nat.zero_le j) (by omega) hfd hfile
      · simp only [Objects.set_get, update_self, some.injEq, ProcFds.mk.injEq, true_and]
        omega

theorem sysOpen_eq_error (hcall : sysOpenPass k h s cur absPath flags mode = .ok (.again s')) :
    ∃ x, s.fds.get cur = some x ∧
      sysOpen k h s cur absPath flags mode = .error (.overrun x.fdTable) := by
  obtain ⟨x, hx, -, hx', hnone⟩ := sysOpenPass_cases hcall
  have hread : s'.fd x.fdTable 0 = .error (.overrun x.fdTable) := by simp [Files.fd, hnone]
  have hpass : sysOpenPass k h s' cur absPath flags mode = .error (.overrun x.fdTable) := by
    simp [sysOpenPass, Files.proc_eq_ok.mpr hx', ok_bind, findFdFrom, hread, error_bind]
  refine ⟨x, hx, ?_⟩
  rw [sysOpen, PROCESS_MAX_FD, sysOpenFrom, hcall, ok_bind]
  dsimp only
  rw [sysOpenFrom, hpass, error_bind]

theorem sysClose_cases {fd : ℤ} (hcall : sysClose s cur fd = .ok (ret, s')) :
    (ret = -EBADF ∧ s' = s) ∨ ret = 0 ∧ ∃ x tab slot, s.fds.get cur = some x ∧
      s.tables.get x.fdTable = some tab ∧ tab[u64 fd]? = some slot ∧ slot.file ≠ none ∧
      s' = { s with tables := s.tables.set x.fdTable (tab.set (u64 fd) { slot with file := none }) } := by
  simp only [sysClose, bind_eq_ok, Files.proc_eq_ok] at hcall
  obtain ⟨x, hx, hcall⟩ := hcall
  split at hcall
  next =>
    cases hcall
    exact .inl ⟨rfl, rfl⟩
  next =>
    simp only [bind_eq_ok, Files.fd_eq_ok] at hcall
    obtain ⟨slot, ⟨tab, htab, hslot⟩, hcall⟩ := hcall
    split at hcall
    next =>
      cases hcall
      exact .inl ⟨rfl, rfl⟩
    next hfile =>
      simp only [bind_eq_ok, Files.storeFd_eq_ok] at hcall
      obtain ⟨s1, ⟨tab', slot', htab', hslot', rfl⟩, hret⟩ := hcall
      cases htab'.symm.trans htab
      cases hslot'.symm.trans hslot
      cases hret
      exact .inr ⟨rfl, x, tab, slot, hx, htab, hslot, hfile, rfl⟩

end Calls

section Live
variable {k : Kmalloc} {h : FdKmalloc} {s s' : Files} {c : FileCall}

/-- Every process has a table in the heap, with a slot for each number up to `fdMax`. -/
def Files.TablesOk (s : Files) : Prop :=
  ∀ p x, s.fds.get p = some x → x.fdMax + 1 ≤ PROCESS_MAX_FD ∧
    ∃ tab, s.tables.get x.fdTable = some tab ∧ tab.length = x.fdMax + 1

def Files.descriptor (s : Files) (p i : ℕ) : Option Fd :=
  (s.fds.get p).bind fun x => (s.tables.get x.fdTable).bind (·[i]?)

theorem Files.TablesOk.set {t : ℕ} {tab tab' : List Fd} (hok : s.TablesOk)
    (htab : s.tables.get t = some tab) (hlen : tab'.length = tab.length) :
    ({ s with tables := s.tables.set t tab' } : Files).TablesOk := by
  intro p x hx
  obtain ⟨hmax, old, hold, hsize⟩ := hok p x hx
  refine ⟨hmax, ?_⟩
  by_cases ht : x.fdTable = t
  · obtain rfl : old = tab := some.inj (hold.symm.trans (ht ▸ htab))
    exact ⟨tab', by simp [ht], hlen.trans hsize⟩
  · exact ⟨old, by simp [ht, hold], hsize⟩

theorem Files.TablesOk.storeFd {t i : ℕ} {f : Fd → Fd} (hok : s.TablesOk)
    (hstore : s.storeFd t i f = .ok s') : s'.TablesOk := by
  obtain ⟨tab, fd, htab, -, rfl⟩ := Files.storeFd_eq_ok.mp hstore
  exact hok.set htab length_set

theorem OpenedInto.tablesOk {t i : ℕ} {path : List Char} {flags mode : BitVec 32}
    (hopen : OpenedInto k s t i path flags mode s') (hok : s.TablesOk) : s'.TablesOk := by
  obtain ⟨fal, tab, fd, fd', -, htab, -, rfl⟩ := hopen
  exact hok.set htab length_set

section
variable (hok : s.TablesOk)
include hok

theorem forkFd_tablesOk {parent child i : ℕ} (hcall : forkFd parent child i s = .ok s') :
    s'.TablesOk := by
  simp only [forkFd, bind_eq_ok] at hcall
  obtain ⟨fd, -, s1, hstore, fal, -, hret⟩ := hcall
  cases hret
  have hok' := hok.storeFd hstore
  exact hok'

theorem freeFd_tablesOk {t i : ℕ} (hcall : freeFd t i s = .ok s') : s'.TablesOk := by
  simp only [freeFd, bind_eq_ok] at hcall
  obtain ⟨fd, -, fal, -, hret⟩ := hcall
  cases hret
  exact hok

theorem Files.TablesOk.sysFork {cur a mainThread : ℕ} {pid : ℤ}
    (hcall : s.sysFork h cur a mainThread = .ok (pid, s')) : s'.TablesOk := by
  simp only [Files.sysFork, vnodeAllocFdTable, bind_eq_ok, Files.proc_eq_ok] at hcall
  obtain ⟨⟨pid', procs⟩, -, x, hx, s1, hloop, hret⟩ := hcall
  cases hret
  have hstart : ({ s with
      tables := s.tables.set (h.alloc s.tables) (replicate (x.fdMax + 1) .cleared)
      fds := s.fds.set a ⟨h.alloc s.tables, x.fdMax⟩ } : Files).TablesOk := by
    intro p y hy
    by_cases hp : p = a
    · simp only [hp, Objects.set_get, update_self, some.injEq] at hy
      subst hy
      exact ⟨(hok cur x hx).1, _, update_self .., length_replicate⟩
    · simp only [Objects.set_get, update_of_ne hp] at hy
      obtain ⟨hmax, tab, htab, hlen⟩ := hok p y hy
      exact ⟨hmax, tab, h.get_set_alloc htab, hlen⟩
  have hend : s1.TablesOk :=
    forRange_ok (fun _ u => u.TablesOk) hloop hstart
      fun i u u' _ _ hu hbody => forkFd_tablesOk hu hbody
  exact hend

theorem Files.TablesOk.sysWaitpid {cur child exitStatus : ℕ} {arg pid : ℤ} {t : ProcTable}
    (hcall : s.sysWaitpid cur arg = .ok (.reaped child pid exitStatus t, s')) : s'.TablesOk := by
  simp only [Files.sysWaitpid, bind_eq_ok] at hcall
  obtain ⟨outcome, -, hcall⟩ := hcall
  cases outcome with
  | enosys | waits => cases hcall
  | reaped c pid' code procs =>
    simp only [bind_eq_ok, Files.proc_eq_ok] at hcall
    obtain ⟨x, -, s1, hloop, hret⟩ := hcall
    cases hret
    have hend : s1.TablesOk :=
      forRange_ok (fun _ u => u.TablesOk) hloop hok
        fun i u u' _ _ hu hbody => freeFd_tablesOk hu hbody
    intro p y hy
    by_cases hp : p = child
    · simp [hp] at hy
    · simp only [Objects.free_get, update_of_ne hp] at hy
      exact hend p y hy

end

theorem not_tablesOk_of_again {cur : ℕ} {absPath : Option (List Char)} {flags mode : BitVec 32}
    (hcall : sysOpenPass k h s cur absPath flags mode = .ok (.again s')) : ¬s'.TablesOk := by
  intro hok
  obtain ⟨x, -, -, hx, hnone⟩ := sysOpenPass_cases hcall
  obtain ⟨-, tab, htab, -⟩ := hok _ _ hx
  rw [hnone] at htab
  cases htab

/-- A call that does not make a table grow. -/
def FileCall.Steady (s : Files) : FileCall → Prop
  | .open cur _ => s.Room cur
  | _ => True

theorem FileStep.tablesOk_iff (hstep : FileStep k h s c s') (hok : s.TablesOk) :
    s'.TablesOk ↔ c.Steady s := by
  cases hstep with
  | opened cur absPath flags mode hcur hrun hcall =>
    obtain ⟨x, -, hroom, hcases⟩ := sysOpenPass_cases hcall
    refine iff_of_true ?_ hroom
    obtain rfl | ⟨i, -, -, hopen⟩ := hcases
    · exact hok
    · exact hopen.tablesOk hok
  | grew cur absPath flags mode hcur hrun hcall =>
    obtain ⟨x, -, hfull, -⟩ := sysOpenPass_cases hcall
    exact iff_of_false (not_tablesOk_of_again hcall) hfull
  | closed cur fd hcur hrun hcall =>
    refine iff_of_true ?_ trivial
    obtain ⟨-, rfl⟩ | ⟨-, x, tab, slot, -, htab, -, -, rfl⟩ := sysClose_cases hcall
    · exact hok
    · exact hok.set htab length_set
  | forked cur a mainThread hcur hrun ha hcall => exact iff_of_true (hok.sysFork hcall) trivial
  | exited cur status hcur hrun hcall =>
    refine iff_of_true ?_ trivial
    simp only [Files.sysExit, bind_eq_ok] at hcall
    obtain ⟨procs, -, hret⟩ := hcall
    cases hret
    exact hok
  | reaped cur arg hcur hrun hcall => exact iff_of_true (hok.sysWaitpid hcall) trivial

theorem FileStep.descriptor_eq {absPath : Option (List Char)} {cur p i : ℕ} {fd : Fd}
    (hstep : FileStep k h s (.open cur absPath) s') (hroom : s.Room cur)
    (hfd : s.descriptor p i = some fd) (hfile : fd.file ≠ none) :
    s'.descriptor p i = some fd := by
  cases hstep with
  | grew cur absPath flags mode hcur hrun hcall =>
    obtain ⟨x, -, hfull, -⟩ := sysOpenPass_cases hcall
    exact absurd hroom hfull
  | opened cur absPath flags mode hcur hrun hcall =>
    obtain ⟨x, hx, -, rfl | ⟨j, -, ⟨tab, free, htab, hfree, hnone⟩, hopen⟩⟩ :=
      sysOpenPass_cases hcall
    · exact hfd
    · obtain ⟨fal, tab', old, new, -, htab', -, rfl⟩ := hopen
      cases htab'.symm.trans htab
      simp only [Files.descriptor, bind_eq_some_iff] at hfd ⊢
      obtain ⟨y, hy, ytab, hytab, hslot⟩ := hfd
      refine ⟨y, hy, ?_⟩
      by_cases ht : y.fdTable = x.fdTable
      · obtain rfl : ytab = tab := some.inj (hytab.symm.trans (ht ▸ htab))
        have hij : j ≠ i := by
          rintro rfl
          cases hslot.symm.trans hfree
          exact hfile hnone
        exact ⟨ytab.set j new, by simp [ht], by rw [getElem?_set_ne hij, hslot]⟩
      · exact ⟨ytab, by simp [ht, hytab], hslot⟩

inductive SteadyStep (k : Kmalloc) (h : FdKmalloc) : Files → Files → Prop
  | step {s t : Files} (c : FileCall) (hstep : FileStep k h s c t) (hsteady : c.Steady s) :
      SteadyStep k h s t

theorem SteadyStep.opened {caller : ProcessT} (cur : ℕ) (absPath : Option (List Char))
    (flags mode : BitVec 32) (ret : ℤ) (hcur : s.procs.procs cur = some caller) (hrun : caller.status = .running)
    (hcall : sysOpenPass k h s cur absPath flags mode = .ok (.returned ret s')) :
    SteadyStep k h s s' := by
  obtain ⟨x, -, hroom, -⟩ := sysOpenPass_cases hcall
  exact .step _ (.opened cur absPath flags mode hcur hrun hcall) hroom

/-- In a run of calls that find room every process has its table; the next call keeps this exactly if
it finds room too, and then a `sys_open` leaves the open descriptors as they are. -/
theorem fdTables_live {s₀ : Files} (hok : s₀.TablesOk)
    (hrun : ReflTransGen (SteadyStep k h) s₀ s) :
    s.TablesOk ∧ (∀ c t, FileStep k h s c t → (t.TablesOk ↔ c.Steady s)) ∧
      ∀ cur absPath t, FileStep k h s (.open cur absPath) t → s.Room cur → ∀ p i fd,
        s.descriptor p i = some fd → fd.file ≠ none → t.descriptor p i = some fd := by
  have hend : s.TablesOk := by
    refine Runs.invariant (fun a b ha hstep => ?_) hok hrun
    obtain ⟨c, hstep, hsteady⟩ := hstep
    exact (hstep.tablesOk_iff ha).mpr hsteady
  exact ⟨hend, fun c t hstep => hstep.tablesOk_iff hend,
    fun cur absPath t hstep hroom p i fd => hstep.descriptor_eq hroom⟩

set_option maxRecDepth 10000 in
/-- A process opens a file. -/
theorem fdTables_live_opened : ∃ s₀ s : Files,
    Files.createInit .bump .bump (initrdInit [⟨['x'], .reg, 3⟩]) 5 9 = .ok s₀ ∧
      ReflTransGen (SteadyStep .bump .bump) s₀ s ∧ s.descriptor 5 0 = some ⟨some 1, 0, 0⟩ ∧
      s.TablesOk := by
  obtain ⟨s₀, s, hinit, hrun, hfd⟩ : ∃ s₀ s : Files,
      Files.createInit .bump .bump (initrdInit [⟨['x'], .reg, 3⟩]) 5 9 = .ok s₀ ∧
        ReflTransGen (SteadyStep .bump .bump) s₀ s ∧ s.descriptor 5 0 = some ⟨some 1, 0, 0⟩ := by
    refine ⟨_, _, rfl, .single (.opened 5 (some ['/', 'x']) 0 0 0 rfl rfl rfl), ?_⟩
    rfl
  have hok : s₀.TablesOk := by
    cases hinit
    intro p x hx
    by_cases hp : p = 5
    · subst hp
      cases hx
      exact ⟨by decide, _, rfl, rfl⟩
    · simp [hp, Objects.empty] at hx
  exact ⟨s₀, s, hinit, hrun, hfd, (fdTables_live hok hrun).1⟩

end Live

section Growth
variable {n k : ℕ} {fd : Fd}

/-- The first `n` slots are open on the vnode at 0, the next one is `fd`, the rest is free. -/
def filledTable (n : ℕ) (fd : Fd) : List Fd :=
  List.replicate n ⟨some 0, 0, O_DIRECTORY⟩ ++ fd :: List.replicate (127 - n) .cleared

/-- The first process has such a table, and its root directory was opened `k` times, twice or more. -/
def filled (k n : ℕ) (fd : Fd) : Files where
  fal := { initrdInit [] with
    mem := .set .empty 0 ⟨[], 0, O_DIRECTORY, .dir, 0, k, none, 0, initrdVnodeOps, none, some 0⟩
    vnodeListHead := some 0
    vnodeListTail := some 0 }
  procs := ⟨update (fun _ => none) 5 (some ⟨1, 0, .running, 9, none, none⟩), some 5, some 5, some 5,
    2⟩
  fds := Objects.empty.set 5 ⟨0, 127⟩
  tables := Objects.empty.set 0 (filledTable n fd)

theorem filledTable_succ (hn : n < 127) :
    filledTable n ⟨some 0, 0, O_DIRECTORY⟩ = filledTable (n + 1) .cleared := by
  rw [filledTable, filledTable, show 127 - n = 127 - (n + 1) + 1 by omega, replicate_succ,
    replicate_succ', append_assoc, singleton_append]

theorem filled_storeFd (f : Fd → Fd) : (filled k n fd).storeFd 0 n f = .ok (filled k n (f fd)) := by
  rw [Files.storeFd_eq_ok]
  refine ⟨filledTable n fd, fd, rfl, by simp [filledTable], ?_⟩
  simp [filled, filledTable, Objects.set_set]

theorem filled_find (m : ℕ) :
    findFdFrom (filled k n fd) 0 0 (n + m) = findFdFrom (filled k n fd) 0 n m := by
  have htab : (filled k n fd).tables.get 0 = some (filledTable n fd) := rfl
  rw [findFdFrom_add htab fun j _ hj => ⟨⟨some 0, 0, O_DIRECTORY⟩, ?_, by simp⟩, Nat.zero_add]
  simp [filledTable, getElem?_append, show j < n by omega]

theorem filled_start : ∃ s₀, Files.createInit .bump .bump (initrdInit []) 5 9 = .ok s₀ ∧
    ReflTransGen (SteadyStep .bump .bump) s₀ (filled 3 3 .cleared) := by
  refine ⟨_, rfl, ((ReflTransGen.single (.opened 5 (some ['/']) O_DIRECTORY 0 0 rfl rfl rfl)).tail
    (.opened 5 (some ['/']) O_DIRECTORY 0 1 rfl rfl rfl)).tail
      (.opened 5 (some ['/']) O_DIRECTORY 0 2 rfl rfl ?_)⟩
  refine Eq.trans (b := .ok (.returned 2 _)) rfl ?_
  simp only [filled, Fal.setVnode, initrdInit, Objects.set_set]
  rfl

theorem filled_open (hn : n < 127) :
    sysOpenPass .bump .bump (filled n n .cleared) 5 (some ['/']) O_DIRECTORY 0 =
      .ok (.returned n (filled (n + 1) (n + 1) .cleared)) := by
  have hfind : findFdFrom (filled n n .cleared) 0 0 127 = .ok (some n) := by
    have hnext : (filled n n .cleared).fd 0 n = .ok .cleared :=
      Files.fd_eq_ok.mpr ⟨filledTable n .cleared, rfl, by simp [filledTable]⟩
    rw [show 127 = n + (126 - n + 1) by omega, filled_find, findFdFrom, hnext]
    rfl
  have hopen : vnodeOpen .bump (filled n n .cleared).fal ['/'] O_DIRECTORY 0 =
      .ok (some 0, (filled (n + 1) n .cleared).fal) := by
    refine Eq.trans (b := .ok (some 0, _)) rfl ?_
    simp only [filled, Fal.setVnode, Objects.set_set]
    rfl
  have hset : (⟨(filled (n + 1) n .cleared).fal, (filled n n .cleared).procs,
      (filled n n .cleared).fds, (filled n n .cleared).tables⟩ : Files) =
        filled (n + 1) n .cleared := rfl
  have hproc : (filled n n .cleared).proc 5 = .ok ⟨0, 127⟩ := rfl
  have hoffset : ∀ s, appendOffset s 0 O_DIRECTORY = .ok 0 := fun s => rfl
  simp only [sysOpenPass, hproc, ok_bind, hfind, sysOpenSlot, openInto, getD_some, hopen,
    hset, filled_storeFd, pure_bind, hoffset]
  rw [filled, filledTable_succ hn]
  rfl
theorem filled_run (hn : n ≤ 124) :
    ReflTransGen (SteadyStep .bump .bump) (filled 3 3 .cleared)
      (filled (3 + n) (3 + n) .cleared) := by
  induction n with
  | zero => exact .refl
  | succ n ih =>
    exact (ih (by omega)).tail (.opened 5 _ _ _ _ rfl rfl (filled_open (by omega)))

/-- From the state after `process_create_init` a process opens the root directory until its table
is full. The next `sys_open` frees the table. -/
theorem fdTables_freed : ∃ s₀ s t : Files,
    Files.createInit .bump .bump (initrdInit []) 5 9 = .ok s₀ ∧
      ReflTransGen (SteadyStep .bump .bump) s₀ s ∧
      FileStep .bump .bump s (.open 5 (some ['/'])) t ∧ ¬t.TablesOk ∧
      sysOpen .bump .bump s 5 (some ['/']) O_DIRECTORY 0 = .error (.overrun 0) := by
  obtain ⟨s₀, hinit, hstart⟩ := filled_start
  obtain ⟨t, hagain⟩ : ∃ t, sysOpenPass .bump .bump (filled 127 127 .cleared) 5 (some ['/'])
      O_DIRECTORY 0 = .ok (.again t) := by
    have hproc : (filled 127 127 .cleared).proc 5 = .ok ⟨0, 127⟩ := rfl
    have hfind : findFdFrom (filled 127 127 .cleared) 0 0 127 = .ok none := filled_find 0
    have htab : (filled 127 127 .cleared).tables.get 0 = some (filledTable 127 .cleared) := rfl
    have hlen : (filledTable 127 .cleared).length = 128 := by simp [filledTable]
    simp only [sysOpenPass, hproc, ok_bind, hfind, vnodeReallocFdTable, htab, hlen]
    exact ⟨_, rfl⟩
  obtain ⟨x, hx, herror⟩ := sysOpen_eq_error hagain
  cases hx
  exact ⟨s₀, _, t, hinit, hstart.trans (filled_run le_rfl), .grew 5 _ _ _ rfl rfl hagain,
    not_tablesOk_of_again hagain, herror⟩

end Growth

end GarnOS
