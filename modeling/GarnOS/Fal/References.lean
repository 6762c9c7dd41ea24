import GarnOS.Fal.FdTables
import GarnOS.Fal.VnodeUse
import GarnOS.Process.Reaping

/-! Reference counts of vnodes against the descriptors that refer to them. -/
namespace GarnOS
open Function Outcome Relation List Option Objects

section Counts
variable {k : Kmalloc} {s t : Fal} {a b : ℕ} {v : Vnode}

/-- `refCount` of the vnode at an address, 0 if there is none. -/
def Fal.count (s : Fal) (a : ℕ) : ℤ := ((s.mem.get a).map Vnode.refCount).getD 0

theorem Fal.count_eq (hv : s.mem.get a = some v) : s.count a = v.refCount := by
  simp [Fal.count, hv]

theorem Fal.count_of_none (ha : s.mem.get a = none) : s.count a = 0 := by
  simp [Fal.count, ha]

theorem Fal.Sound.count_nonneg (hs : s.Sound) (a : ℕ) : 0 ≤ s.count a := by
  cases hv : s.mem.get a with
  | none => exact (Fal.count_of_none hv).ge
  | some v => exact (hs.nonneg a v hv).trans (Fal.count_eq hv).ge

theorem setVnode_count : (s.setVnode a v).count b = if b = a then v.refCount else s.count b := by
  by_cases hb : b = a
  all_goals simp [Fal.count, hb]

theorem dropVnode_count : (s.dropVnode a v).count b = if b = a then 0 else s.count b := by
  by_cases hb : b = a
  all_goals simp [Fal.count, hb]

theorem LinksOnly.count (h : LinksOnly s t) : t.count a = s.count a := by
  cases hv : s.mem.get a with
  | none =>
    have hmap := h.content a
    rw [hv, map_none, map_eq_none_iff] at hmap
    rw [Fal.count_of_none hv, Fal.count_of_none hmap]
  | some v =>
    obtain ⟨w, hw, heq⟩ := h.get hv
    rw [Fal.count_eq hv, Fal.count_eq hw, Vnode.refCount_of_unlinked heq]

theorem LookupEffect.count (heffect : LookupEffect s t) (hs : s.Sound) : t.count a = s.count a := by
  cases heffect with
  | errno e => rfl
  | create b v hfresh hcount =>
    rw [setVnode_count]
    split
    next hab => rw [hcount, hab, Fal.count_of_none hfresh]
    next => rfl
  | recycle b v hv hunused =>
    rw [dropVnode_count]
    split
    next hab =>
      have hnonneg := hs.nonneg b v hv
      have hpos : ¬0 < v.refCount := fun hpos => hunused (.inl hpos)
      rw [hab, Fal.count_eq hv]
      omega
    next => rfl

theorem LookupEffect.count_run (heffect : ReflTransGen LookupEffect s t) (hs : s.Sound) :
    t.count a = s.count a := by
  induction heffect with
  | refl => rfl
  | tail hrun hlast ih => exact (hlast.count (LookupEffect.sound_run hrun hs)).trans ih

theorem vnodeOpen_count {path : List Char} {flags mode : BitVec 32} {r : Option ℕ} (hs : s.Sound)
    (hwalk : WalkOk k s path) (h : vnodeOpen k s path flags mode = .ok (r, t)) :
    t.count b = s.count b + if r = some b then 1 else 0 := by
  obtain ⟨o, u, hlookup, hcase⟩ := vnodeOpen_cases h
  have heffect := vnodeLookup_effect hs hwalk hlookup
  rw [← LookupEffect.count_run heffect hs]
  obtain ⟨-, rfl, rfl⟩ | ⟨a, -, hat⟩ := hcase
  · simp
  obtain ⟨v, hv, ⟨rfl, e, rfl⟩ | ⟨found, rfl, -, hcase⟩⟩ := vnodeOpenAt_cases hat
  · simp [Fal.count]
  have hcount : (u.setVnode a v.referenced).count b = u.count b + if some a = some b then 1 else 0 := by
    rw [setVnode_count]
    by_cases hb : b = a
    · simp [hb, Vnode.referenced, Fal.count_eq hv]
    · simp [hb, Ne.symm hb]
  rw [← hcount]
  obtain ⟨-, rfl⟩ | ⟨-, m, w, hadd, hw, rfl⟩ := hcase
  · rfl
  · rw [← (vnodeListAdd_links hadd).1.count, setVnode_count]
    split
    next hb => rw [hb, Fal.count_eq hw]
    next => rfl

theorem countFile_spec {file : Option ℕ} {n : ℤ} (hs : s.Sound)
    (hpos : ∀ a, file = some a → 0 < s.count a + n) (h : countFile s file n = .ok t) :
    t.Sound ∧ ∀ b, t.count b = s.count b + if file = some b then n else 0 := by
  cases file with
  | none =>
    cases h
    exact ⟨hs, by simp⟩
  | some a =>
    simp only [countFile, bind_eq_ok, Fal.vnode_eq_ok] at h
    obtain ⟨v, hv, hret⟩ := h
    cases hret
    have hnew : 0 < v.refCount + n := Fal.count_eq hv ▸ hpos a rfl
    refine ⟨hs.setVnode hv rfl rfl hnew.le fun _ _ => hnew, fun b => ?_⟩
    rw [setVnode_count]
    by_cases hb : b = a
    · simp [hb, Fal.count_eq hv]
    · simp [hb, Ne.symm hb]

end Counts

section Slots
variable {tab : List Fd} {fd fd' : Fd} {i a : ℕ}

def fileCount (tab : List Fd) (a : ℕ) : ℕ := tab.countP fun fd => fd.file = some a

theorem fileCount_set (hfd : tab[i]? = some fd) (hfile : fd.file = none) :
    fileCount (tab.set i fd') a = fileCount tab a + if fd'.file = some a then 1 else 0 := by
  obtain ⟨hi, rfl⟩ := List.getElem?_eq_some_iff.mp hfd
  simp [fileCount, countP_set hi, hfile]

theorem fileCount_take_succ (hfd : tab[i]? = some fd) :
    fileCount (tab.take (i + 1)) a = fileCount (tab.take i) a + if fd.file = some a then 1 else 0 := by
  simp [fileCount, take_add_one, hfd, countP_append, countP_singleton]

theorem fileCount_take_le : fileCount (tab.take i) a ≤ fileCount tab a :=
  (take_sublist i tab).countP_le

theorem fileCount_take_last (hlen : tab.length = i + 1)
    (hlast : ∀ fd, tab[i]? = some fd → fd.file = none) :
    fileCount (tab.take i) a = fileCount tab a := by
  have hget := getElem?_eq_getElem (show i < tab.length by omega)
  have hall := fileCount_take_succ hget (a := a)
  rw [hlast _ hget, take_of_length_le (by omega)] at hall
  simpa using hall.symm

end Slots

section References
variable {k : Kmalloc} {h : FdKmalloc} {s s' : Files} {base : ℕ → ℤ} {cur : ℕ}

def Files.slots (s : Files) (a : ℕ) (x : ProcFds) : ℕ :=
  fileCount ((s.tables.get x.fdTable).getD []) a

/-- How many slots of all processes refer to a vnode. -/
def Files.refs (s : Files) (a : ℕ) : ℕ := s.fds.total (s.slots a)

theorem Files.slots_eq {a : ℕ} {x : ProcFds} {tab : List Fd}
    (htab : s.tables.get x.fdTable = some tab) :
    s.slots a x = fileCount tab a := by
  simp [Files.slots, htab]

/-- A table has a slot for each number up to `fdMax`, and no file at the last one. -/
def TableOk (s : Files) (x : ProcFds) : Prop :=
  ∃ tab, s.tables.get x.fdTable = some tab ∧ tab.length = x.fdMax + 1 ∧
    ∀ fd, tab[x.fdMax]? = some fd → fd.file = none

/-- The processes in the list are those with descriptors, each has its own table, and a count is the
number of slots that refer to the vnode, besides the references `base` that others hold. It fits into
an `int`. -/
structure Files.Counted (s : Files) (base : ℕ → ℤ) : Prop where
  sound : s.fal.Sound
  listed : ∃ l, Listed s.procs l
  same : ∀ p, s.procs.procs p = none ↔ s.fds.get p = none
  tables : ∀ p x, s.fds.get p = some x → TableOk s x
  apart : ∀ p q x y, s.fds.get p = some x → s.fds.get q = some y → x.fdTable = y.fdTable → p = q
  counts : ∀ a, s.fal.count a = base a + s.refs a
  fits : ∀ a, s.fal.count a < 2 ^ 31

/-- Opening into a free slot below `fdMax` adds the reference that the slot then holds. -/
theorem Files.Counted.opened {x : ProcFds} {i : ℕ} {path : List Char} {flags mode : BitVec 32}
    (hs : s.Counted base) (hx : s.fds.get cur = some x) (hi : i < x.fdMax)
    (hfree : ∃ tab fd, s.tables.get x.fdTable = some tab ∧ tab[i]? = some fd ∧ fd.file = none)
    (hwalk : WalkOk k s.fal path) (hfits : ∀ a, s.fal.count a + 1 < 2 ^ 31)
    (hopen : OpenedInto k s x.fdTable i path flags mode s') :
    s'.Counted base ∧ ∀ a, s.refs a ≤ s'.refs a := by
  obtain ⟨tab, fd, htab, hfd, hfile⟩ := hfree
  obtain ⟨fal, tab', fd', new, hvnode, htab', hfd', rfl⟩ := hopen
  cases htab'.symm.trans htab
  set t : Files := { s with fal := fal, tables := s.tables.set x.fdTable (tab.set i new) } with ht
  have hget : ∀ y : ProcFds, y.fdTable ≠ x.fdTable →
      t.tables.get y.fdTable = s.tables.get y.fdTable :=
    fun y hy => update_of_ne hy _ _
  have hgetx : t.tables.get x.fdTable = some (tab.set i new) := update_self ..
  have hrefs : ∀ a, t.refs a = s.refs a + if new.file = some a then 1 else 0 := by
    intro a
    have hchange : s.fds.total (t.slots a) + s.slots a x = s.fds.total (s.slots a) + t.slots a x := by
      refine total_change hx fun q y hq hy => ?_
      have hne : y.fdTable ≠ x.fdTable := fun heq => hq (hs.apart q cur y x hy hx heq)
      rw [Files.slots, hget y hne, Files.slots]
    rw [Files.slots_eq htab, Files.slots_eq hgetx, fileCount_set hfd hfile] at hchange
    have htotal : t.refs a = s.fds.total (t.slots a) := rfl
    rw [htotal, Files.refs]
    omega
  refine ⟨⟨(vnodeOpen_sound hs.sound hwalk hvnode).1, hs.listed, hs.same, fun q y hy => ?_, hs.apart,
    fun a => ?_, fun a => ?_⟩, fun a => (hrefs a).ge.trans' (Nat.le_add_right ..)⟩
  · by_cases hne : y.fdTable = x.fdTable
    · obtain rfl : q = cur := hs.apart q cur y x hy hx hne
      cases hy.symm.trans hx
      obtain ⟨old, hold, hlen, hlast⟩ := hs.tables q x hx
      cases hold.symm.trans htab
      refine ⟨_, hgetx, length_set.trans hlen, fun fd hfd => hlast fd ?_⟩
      rwa [getElem?_set_ne hi.ne] at hfd
    · obtain ⟨old, hold, hlen, hlast⟩ := hs.tables q y hy
      exact ⟨old, (hget y hne).trans hold, hlen, hlast⟩
  · have hcount := vnodeOpen_count (b := a) hs.sound hwalk hvnode
    rw [hrefs a, ht]
    rw [hcount, hs.counts a]
    push_cast
    omega
  · have hlt := hfits a
    rw [ht, vnodeOpen_count hs.sound hwalk hvnode]
    split <;> omega

/-- The state in the loop of `sys_fork` after `i` slots of `tab` are copied to the table `child`. -/
structure ForkLoop (s : Files) (tab : List Fd) (child n i : ℕ) (u : Files) : Prop where
  sound : u.fal.Sound
  procs : u.procs = s.procs
  fds : u.fds = s.fds
  others : ∀ t, t ≠ child → u.tables.get t = s.tables.get t
  copied : ∃ new, u.tables.get child = some new ∧ new.length = n ∧
    (∀ j fd, i ≤ j → new[j]? = some fd → fd.file = none) ∧
    ∀ a, fileCount new a = fileCount (tab.take i) a
  counts : ∀ a, u.fal.count a = s.fal.count a + fileCount (tab.take i) a

theorem ForkLoop.step {tab : List Fd} {parent child n i : ℕ} {u u' : Files}
    (hu : ForkLoop s tab child n i u) (htab : s.tables.get parent = some tab) (hne : parent ≠ child)
    (hbody : forkFd parent child i u = .ok u') : ForkLoop s tab child n (i + 1) u' := by
  simp only [forkFd, bind_eq_ok, Files.fd_eq_ok, Files.storeFd_eq_ok] at hbody
  obtain ⟨fd, ⟨tab', htab', hfd⟩, u1, ⟨new, slot, hnew, hslot, rfl⟩, fal, hcount, hret⟩ := hbody
  cases hret
  obtain rfl : tab = tab' :=
    some.inj (htab.symm.trans ((hu.others parent hne).symm.trans htab'))
  obtain ⟨new', hnew', hlen, hclear, hfiles⟩ := hu.copied
  cases hnew'.symm.trans hnew
  have hpos : ∀ a, fd.file = some a → 0 < u.fal.count a + 1 := fun a _ => by
    have hnonneg := hu.sound.count_nonneg a
    omega
  obtain ⟨hsound, hcounts⟩ := countFile_spec hu.sound hpos hcount
  refine ⟨hsound, hu.procs, hu.fds, fun t ht => ?_,
    ⟨new.set i fd, update_self .., ?_, ?_, ?_⟩,
    fun a => ?_⟩
  · exact (update_of_ne ht _ _).trans (hu.others t ht)
  · exact length_set.trans hlen
  · intro j fd' hj hfd'
    rw [getElem?_set_ne (by omega)] at hfd'
    exact hclear j fd' (by omega) hfd'
  · intro a
    rw [fileCount_set hslot (hclear i slot le_rfl hslot), hfiles, fileCount_take_succ hfd]
  · rw [hcounts a, hu.counts a, fileCount_take_succ hfd]
    push_cast
    omega

theorem forkLoop_end {tab : List Fd} {parent child n : ℕ} {u : Files}
    (hloop : forRange (forkFd parent child) 0 n s = .ok u) (hsound : s.fal.Sound)
    (htab : s.tables.get parent = some tab) (hne : parent ≠ child)
    (hchild : s.tables.get child = some (List.replicate (n + 1) .cleared)) :
    ForkLoop s tab child (n + 1) n u := by
  have hstart : ForkLoop s tab child (n + 1) 0 s := by
    refine ⟨hsound, rfl, rfl, fun _ _ => rfl, ⟨_, hchild, length_replicate, ?_, ?_⟩, ?_⟩
    · intro j fd _ hfd
      rw [eq_of_mem_replicate (mem_of_getElem? hfd)]
      rfl
    · simp [fileCount, Fd.cleared]
    · simp [fileCount]
  have hend := forRange_ok (ForkLoop s tab child (n + 1)) hloop hstart
    fun i v v' _ _ hv hbody => hv.step htab hne hbody
  rwa [Nat.zero_add] at hend

theorem Files.Counted.add {a : ℕ} {z : ProcFds} (hs : s.Counted base) (ha : s.fds.get a = none)
    (hsound : s'.fal.Sound) (hlisted : ∃ l, Listed s'.procs l)
    (hprocs : ∀ q, s'.procs.procs q = none ↔ q ≠ a ∧ s.procs.procs q = none)
    (hfds : s'.fds = s.fds.set a z) (hz : TableOk s' z)
    (hold : ∀ q y, s.fds.get q = some y →
      y.fdTable ≠ z.fdTable ∧ s'.tables.get y.fdTable = s.tables.get y.fdTable)
    (hcounts : ∀ b, s'.fal.count b = s.fal.count b + s'.slots b z)
    (hfits : ∀ b, s'.fal.count b < 2 ^ 31) : s'.Counted base ∧ ∀ b, s.refs b ≤ s'.refs b := by
  have hrefs : ∀ b, s'.refs b = s'.slots b z + s.refs b := by
    intro b
    rw [Files.refs, hfds, total_set ha, Files.refs]
    refine congrArg _ (total_congr fun q => ?_)
    cases hy : s.fds.get q with
    | none => rfl
    | some y => simp only [elim_some, Files.slots, (hold q y hy).2]
  have hget : ∀ {q y}, s'.fds.get q = some y → (q = a ∧ y = z) ∨ q ≠ a ∧ s.fds.get q = some y := by
    intro q y hy
    rw [hfds, set_get] at hy
    by_cases hq : q = a
    · rw [hq, update_self] at hy
      exact .inl ⟨hq, (some.inj hy).symm⟩
    · rw [update_of_ne hq] at hy
      exact .inr ⟨hq, hy⟩
  refine ⟨⟨hsound, hlisted, fun q => ?_, fun q y hy => ?_, fun q r y w hy hw heq => ?_, fun b => ?_,
    hfits⟩, fun b => (hrefs b).ge.trans' (Nat.le_add_left ..)⟩
  · rw [hprocs, hfds, set_get, hs.same q]
    by_cases hq : q = a
    all_goals simp [hq]
  · obtain ⟨-, rfl⟩ | ⟨-, hy⟩ := hget hy
    · exact hz
    · obtain ⟨tab, htab, hlen, hlast⟩ := hs.tables q y hy
      exact ⟨tab, (hold q y hy).2.trans htab, hlen, hlast⟩
  · obtain ⟨rfl, rfl⟩ | ⟨-, hy⟩ := hget hy
    · obtain ⟨rfl, -⟩ | ⟨-, hw⟩ := hget hw
      · rfl
      · exact absurd heq.symm (hold r w hw).1
    · obtain ⟨-, rfl⟩ | ⟨-, hw⟩ := hget hw
      · exact absurd heq (hold q y hy).1
      · exact hs.apart q r y w hy hw heq
  · rw [hcounts, hs.counts, hrefs]
    omega

theorem Files.Counted.forked {a mainThread : ℕ} {caller : ProcessT} {pid : ℤ} (hs : s.Counted base)
    (hcur : s.procs.procs cur = some caller) (ha : s.procs.procs a = none)
    (hfits : ∀ x, s.fds.get cur = some x → ∀ b, s.fal.count b + s.slots b x < 2 ^ 31)
    (hcall : s.sysFork h cur a mainThread = .ok (pid, s')) :
    s'.Counted base ∧ ∀ b, s.refs b ≤ s'.refs b := by
  simp only [Files.sysFork, vnodeAllocFdTable, bind_eq_ok, Files.proc_eq_ok] at hcall
  obtain ⟨⟨pid', procs⟩, hfork, x, hx, u, hloop, hret⟩ := hcall
  cases hret
  obtain ⟨tab, htab, -⟩ := hs.tables cur x hx
  have hne : ∀ q y, s.fds.get q = some y → y.fdTable ≠ h.alloc s.tables := by
    intro q y hy
    obtain ⟨old, hold, -⟩ := hs.tables q y hy
    exact h.ne_alloc hold
  have hend := forkLoop_end hloop hs.sound ((update_of_ne (hne cur x hx) _ _).trans htab)
    (hne cur x hx) (update_self ..)
  obtain ⟨new, hnew, hnewlen, hclear, hfiles⟩ := hend.copied
  obtain ⟨l, hl⟩ := hs.listed
  have hcurl : cur ∈ l := (hl.alloc cur).mpr (by simp [hcur])
  obtain ⟨procs', hfork', hlisted, -, -, hinfo⟩ :=
    sysFork_spec hl ha (ne_nil_of_mem hcurl) (nextPid_of_fork hfork) cur mainThread
  cases hfork'.symm.trans hfork
  refine hs.add (z := ⟨h.alloc s.tables, x.fdMax⟩) ((hs.same a).mp ha) hend.sound ⟨_, hlisted⟩
    (fun q => ?_) hend.fds ⟨new, hnew, hnewlen, fun fd hfd => hclear _ fd le_rfl hfd⟩
    (fun q y hy => ⟨hne q y hy, ?_⟩) (fun b => ?_) fun b => ?_
  · rw [← info_eq_none, hinfo]
    by_cases hq : q = a
    · simp [hq]
    · simp [hq, info_eq_none]
  · exact (hend.others _ (hne q y hy)).trans (update_of_ne (hne q y hy) _ _)
  · rw [Files.slots_eq hnew, hfiles, hend.counts]
  · refine lt_of_le_of_lt ?_ (hfits x hx b)
    have hle : fileCount (tab.take x.fdMax) b ≤ fileCount tab b := fileCount_take_le
    rw [hend.counts, Files.slots_eq htab]
    change s.fal.count b + _ ≤ _
    omega

/-- The state in the loop of `process_free` after `i` slots of `tab`. -/
structure FreeLoop (s : Files) (tab : List Fd) (i : ℕ) (u : Files) : Prop where
  sound : u.fal.Sound
  rest : u = { s with fal := u.fal }
  counts : ∀ a, u.fal.count a = s.fal.count a - fileCount (tab.take i) a

theorem FreeLoop.step {tab : List Fd} {t i : ℕ} {u u' : Files} (hu : FreeLoop s tab i u)
    (htab : s.tables.get t = some tab)
    (hspare : ∀ a, 0 < fileCount tab a → (fileCount tab a : ℤ) < s.fal.count a)
    (hbody : freeFd t i u = .ok u') : FreeLoop s tab (i + 1) u' := by
  simp only [freeFd, bind_eq_ok, Files.fd_eq_ok] at hbody
  obtain ⟨fd, ⟨tab', htab', hfd⟩, fal, hcount, hret⟩ := hbody
  cases hret
  rw [hu.rest] at htab'
  cases htab'.symm.trans htab
  have hpos : ∀ a, fd.file = some a → 0 < u.fal.count a + -1 := by
    intro a hfile
    have hsucc := fileCount_take_succ hfd (a := a)
    rw [if_pos hfile] at hsucc
    have hle : fileCount (tab.take (i + 1)) a ≤ fileCount tab a := fileCount_take_le
    have hlt := hspare a (by omega)
    rw [hu.counts a]
    omega
  obtain ⟨hsound, hcounts⟩ := countFile_spec hu.sound hpos hcount
  refine ⟨hsound, ?_, fun a => ?_⟩
  · rw [hu.rest]
  · rw [hcounts a, hu.counts a, fileCount_take_succ hfd]
    split <;> push_cast <;> omega

theorem Files.Counted.remove {c : ℕ} {x : ProcFds} (hs : s.Counted base) (hx : s.fds.get c = some x)
    (hsound : s'.fal.Sound) (hlisted : ∃ l, Listed s'.procs l)
    (hprocs : ∀ q, s'.procs.procs q = none ↔ q = c ∨ s.procs.procs q = none)
    (hfds : s'.fds = s.fds.free c) (htables : s'.tables = s.tables)
    (hcounts : ∀ b, s'.fal.count b = s.fal.count b - s.slots b x) :
    s'.Counted base ∧ ∀ b, s.refs b = s.slots b x + s'.refs b := by
  have hslots : ∀ b, s'.slots b = s.slots b := by
    intro b
    funext y
    rw [Files.slots, Files.slots, htables]
  have hrefs : ∀ b, s.refs b = s.slots b x + s'.refs b := by
    intro b
    rw [Files.refs, Files.refs, hfds, hslots, total_eq_add hx]
  have hget : ∀ {q y}, s'.fds.get q = some y → s.fds.get q = some y := by
    intro q y hy
    rw [hfds, free_get] at hy
    by_cases hq : q = c
    · simp [hq] at hy
    · rwa [update_of_ne hq] at hy
  refine ⟨⟨hsound, hlisted, fun q => ?_, fun q y hy => ?_, fun q r y z hy hz => ?_, fun b => ?_,
    fun b => ?_⟩, hrefs⟩
  · rw [hprocs, hfds, free_get, hs.same q]
    by_cases hq : q = c
    all_goals simp [hq]
  · obtain ⟨tab, htab, hlen, hlast⟩ := hs.tables q y (hget hy)
    exact ⟨tab, htables ▸ htab, hlen, hlast⟩
  · exact hs.apart q r y z (hget hy) (hget hz)
  · rw [hcounts, hs.counts, hrefs]
    omega
  · have hle := hs.fits b
    rw [hcounts]
    omega

theorem Files.Counted.reaped {child exitStatus : ℕ} {arg pid : ℤ} {t : ProcTable}
    (hs : s.Counted base) (hbase : ∀ a, 0 ≤ base a)
    (hspare : ∀ x, s.fds.get child = some x → ∀ a, 0 < s.slots a x → s.slots a x < s.refs a)
    (hcall : s.sysWaitpid cur arg = .ok (.reaped child pid exitStatus t, s')) :
    s'.Counted base ∧ ∀ a, 0 < s.refs a → 0 < s'.refs a := by
  simp only [Files.sysWaitpid, bind_eq_ok] at hcall
  obtain ⟨outcome, hwait, hcall⟩ := hcall
  cases outcome with
  | enosys | waits => cases hcall
  | reaped c pid' code procs =>
    simp only [bind_eq_ok, Files.proc_eq_ok] at hcall
    obtain ⟨x, hx, u, hloop, hret⟩ := hcall
    obtain ⟨houtcome, rfl⟩ := Prod.mk.inj (Except.ok.inj hret)
    obtain ⟨rfl, -⟩ := WaitOutcome.reaped.inj houtcome
    obtain ⟨tab, htab, hlen, hlast⟩ := hs.tables c x hx
    have hslots : ∀ a, s.slots a x = fileCount tab a := fun a => Files.slots_eq htab
    have hpos : ∀ a, 0 < fileCount tab a → (fileCount tab a : ℤ) < s.fal.count a := by
      intro a ha
      have hlt := hspare x hx a ((hslots a).symm ▸ ha)
      have hnonneg := hbase a
      rw [hslots] at hlt
      rw [hs.counts a]
      omega
    have hend : FreeLoop s tab (0 + x.fdMax) u :=
      forRange_ok (FreeLoop s tab) hloop ⟨hs.sound, rfl, by simp [fileCount]⟩
        fun i v v' _ _ hv hbody => hv.step htab hpos hbody
    rw [Nat.zero_add] at hend
    obtain ⟨l, hl⟩ := hs.listed
    obtain ⟨p, hp, -, -, -, hmem, hfree⟩ := sysWaitpid_reaped hl hwait
    obtain ⟨l₁, l₂, rfl⟩ := append_of_mem hmem
    obtain ⟨_, hfree', hlisted, -, -, hinfo⟩ := processFree_spec hl
    cases hfree.symm.trans hfree'
    have hprocs : ∀ q, procs.procs q = none ↔ q = c ∨ s.procs.procs q = none := by
      intro q
      rw [← info_eq_none, hinfo q]
      by_cases hq : q = c
      · simp [hq]
      · simp [hq, info_eq_none]
    have hcounts : ∀ b, u.fal.count b = s.fal.count b - s.slots b x := by
      intro b
      rw [hslots, ← fileCount_take_last hlen hlast, hend.counts]
    obtain ⟨hcounted, hrefs⟩ :
      ({ u with procs := procs, fds := u.fds.free c } : Files).Counted base ∧ _ :=
      hs.remove hx hend.sound ⟨_, hlisted⟩ hprocs (by rw [hend.rest]) (by rw [hend.rest]) hcounts
    refine ⟨hcounted, fun a ha => ?_⟩
    have heq := hrefs a
    obtain hzero | hslot := Nat.eq_zero_or_pos (s.slots a x)
    · omega
    · have hlt := hspare x hx a hslot
      omega

/-- The calls that keep the counts. No lookup on the way recycles an open vnode, no table grows, no
open descriptor is closed, no process is reaped that has the last reference to a vnode, and `refCount`
does not overflow. -/
def Keeps (k : Kmalloc) (s : Files) : FileCall → Prop
  | .open cur absPath => s.Room cur ∧ WalkOk k s.fal (absPath.getD []) ∧
      ∀ a, s.fal.count a + 1 < 2 ^ 31
  | .close cur fd => ∀ slot, s.descriptor cur (u64 fd) = some slot → slot.file = none
  | .fork cur => ∀ x, s.fds.get cur = some x → ∀ a, s.fal.count a + s.slots a x < 2 ^ 31
  | .exit => True
  | .waitpid child => ∀ x, s.fds.get child = some x → ∀ a, 0 < s.slots a x → s.slots a x < s.refs a

inductive KeepingStep (k : Kmalloc) (h : FdKmalloc) : Files → Files → Prop
  | step {s t : Files} (c : FileCall) (hstep : FileStep k h s c t) (hkeeps : Keeps k s c) :
      KeepingStep k h s t

theorem KeepingStep.counted (hbase : ∀ a, 0 ≤ base a) (hstep : KeepingStep k h s s')
    (hs : s.Counted base) : s'.Counted base ∧ ∀ a, 0 < s.refs a → 0 < s'.refs a := by
  obtain ⟨c, hstep, hkeeps⟩ := hstep
  cases hstep with
  | opened cur absPath flags mode hcur hrun hcall =>
    obtain ⟨x, hx, -, rfl | ⟨i, hi, hfree, hopen⟩⟩ := sysOpenPass_cases hcall
    · exact ⟨hs, fun a ha => ha⟩
    · obtain ⟨-, hwalk, hfits⟩ := hkeeps
      obtain ⟨hs', hle⟩ := hs.opened hx hi hfree hwalk hfits hopen
      exact ⟨hs', fun a ha => ha.trans_le (hle a)⟩
  | grew cur absPath flags mode hcur hrun hcall =>
    obtain ⟨x, -, hfull, -⟩ := sysOpenPass_cases hcall
    exact absurd hkeeps.1 hfull
  | closed cur fd hcur hrun hcall =>
    obtain ⟨-, rfl⟩ | ⟨-, x, tab, slot, hx, htab, hslot, hfile, -⟩ := sysClose_cases hcall
    · exact ⟨hs, fun a ha => ha⟩
    · exact absurd (hkeeps slot (by simp [Files.descriptor, hx, htab, hslot])) hfile
  | forked cur a mainThread hcur hrun ha hcall =>
    obtain ⟨hs', hle⟩ := hs.forked hcur ha hkeeps hcall
    exact ⟨hs', fun b hb => hb.trans_le (hle b)⟩
  | exited cur status hcur hrun hcall =>
    simp only [Files.sysExit, bind_eq_ok] at hcall
    obtain ⟨procs, hexit, hret⟩ := hcall
    cases hret
    obtain ⟨l, hl⟩ := hs.listed
    obtain ⟨procs', hexit', hlisted, -, -, hinfo⟩ := sysExit_spec hl hcur status
    cases hexit'.symm.trans hexit
    refine ⟨⟨hs.sound, ⟨l, hlisted⟩, fun q => ?_, hs.tables, hs.apart, hs.counts, hs.fits⟩,
      fun a ha => ha⟩
    rw [← hs.same q, ← info_eq_none, ← info_eq_none, hinfo]
    by_cases hq : q = cur
    · simp [hq, info_eq_none, hcur]
    · simp [hq]
  | reaped cur arg hcur hrun hcall => exact hs.reaped hbase hkeeps hcall

/-- In every run of calls that meet the condition the count of a vnode is the number of slots that
refer to it, besides the references that others hold, without an overflow, and a call releases a
vnode with such slots exactly if none is left. -/
theorem refCount_eq_refs {s₀ : Files} (hbase : ∀ a, 0 ≤ base a) (hinit : s₀.Counted base)
    (hrun : ReflTransGen (KeepingStep k h) s₀ s) :
    (∀ a v, s.fal.mem.get a = some v → v.refCount = base a + s.refs a ∧ v.refCount < 2 ^ 31) ∧
      ∀ t, KeepingStep k h s t → ∀ a, 0 < s.refs a → (t.refs a = 0 ↔ t.fal.mem.get a = none) := by
  have hs : s.Counted base :=
    @Runs.invariant _ _ (fun s => s.Counted base) _ _
      (fun _ _ hs hstep => (hstep.counted hbase hs).1) hinit hrun
  refine ⟨fun a v hv => ?_, fun t hstep a ha => ?_⟩
  · rw [← Fal.count_eq hv]
    exact ⟨hs.counts a, hs.fits a⟩
  · obtain ⟨ht, hpos⟩ := hstep.counted hbase hs
    have hrefs := hpos a ha
    refine iff_of_false hrefs.ne' fun hnone => ?_
    have hcount := ht.counts a
    have hnonneg := hbase a
    rw [Fal.count_of_none hnone] at hcount
    omega

theorem counted_start {a mainThread : ℕ} {z : ProcFds} {tab : List Fd} (hs : s.fal.Sound)
    (hprocs : processCreateInit a mainThread = .ok s.procs) (hfds : s.fds = empty.set a z)
    (htab : s.tables.get z.fdTable = some tab) (hlen : tab.length = z.fdMax + 1)
    (hclear : ∀ fd ∈ tab, fd.file = none) (hfits : ∀ a, s.fal.count a < 2 ^ 31) :
    s.Counted s.fal.count := by
  have hget : ∀ q y, s.fds.get q = some y → q = a ∧ y = z := by
    intro q y hy
    rw [hfds] at hy
    by_cases hq : q = a
    · simp only [hq, set_get, update_self, some.injEq] at hy
      exact ⟨hq, hy.symm⟩
    · simp [hq, empty] at hy
  have hempty : (empty : Objects ProcFds).get a = none := rfl
  refine ⟨hs, ⟨[a], (procInv_init hprocs).listed⟩, fun q => ?_, fun q y hy => ?_,
    fun q r y z hy hz _ => ?_, fun b => ?_, hfits⟩
  · rw [Except.ok.inj (hprocs.symm.trans (processCreateInit_eq mainThread)), hfds]
    by_cases hq : q = a
    all_goals simp [hq, empty]
  · obtain ⟨-, rfl⟩ := hget q y hy
    exact ⟨tab, htab, hlen, fun fd hfd => hclear fd (mem_of_getElem? hfd)⟩
  · rw [(hget q y hy).1, (hget r z hz).1]
  · have hfiles : fileCount tab b = 0 := countP_eq_zero.mpr fun fd hfd => by simp [hclear fd hfd]
    rw [Files.refs, hfds, total_set hempty, Files.slots_eq htab, hfiles]
    simp [total, empty]

theorem Fal.count_lt {n : ℤ} (hn : 0 < n) (hlow : ∀ a < s.fal.mem.bound, s.fal.count a < n) (a : ℕ) :
    s.fal.count a < n := by
  by_cases ha : a < s.fal.mem.bound
  · exact hlow a ha
  · rwa [Fal.count_of_none (s.fal.mem.above a (by omega))]

theorem KeepingStep.opened {caller : ProcessT} {ret : ℤ} (cur : ℕ) (name : List Char)
    (hname : dirNames ('/' :: name) = []) (hlow : ∀ a < s.fal.mem.bound, s.fal.count a < 2 ^ 31 - 1)
    (hcur : s.procs.procs cur = some caller) (hrun : caller.status = .running)
    (hcall : sysOpenPass k h s cur (some ('/' :: name)) 0 0 = .ok (.returned ret s')) :
    KeepingStep k h s s' := by
  obtain ⟨x, -, hroom, -⟩ := sysOpenPass_cases hcall
  refine .step _ (.opened cur _ 0 0 hcur hrun hcall) ⟨hroom, ?_, fun a => ?_⟩
  · have hclosed : s.fal.ClosedPath ('/' :: name) := by simp [Fal.ClosedPath, hname]
    exact hclosed.walkOk
  · have hlt := Fal.count_lt (by decide) hlow a
    omega

set_option maxRecDepth 10000 in
/-- A process opens a file twice: the file has two references. -/
theorem refCount_eq_refs_two_opens : ∃ s₀ s : Files,
    Files.createInit .bump .bump (initrdInit [⟨['x'], .reg, 3⟩]) 5 9 = .ok s₀ ∧
      ReflTransGen (KeepingStep .bump .bump) s₀ s ∧ s.refs 1 = 2 ∧
      ∀ v, s.fal.mem.get 1 = some v → v.refCount = 2 := by
  obtain ⟨s₀, s, hinit, hrun, hrefs⟩ : ∃ s₀ s : Files,
      Files.createInit .bump .bump (initrdInit [⟨['x'], .reg, 3⟩]) 5 9 = .ok s₀ ∧
        ReflTransGen (KeepingStep .bump .bump) s₀ s ∧ s.refs 1 = 2 := by
    refine ⟨_, _, rfl, (ReflTransGen.single (.opened 5 ['x'] rfl (by decide) rfl rfl rfl)).tail
      (.opened 5 ['x'] rfl (by decide) rfl rfl rfl), ?_⟩
    rfl
  have hcounted : s₀.Counted s₀.fal.count := by
    cases hinit
    have hsound := initrdInit_sound [⟨['x'], .reg, 3⟩]
    exact counted_start ⟨hsound.nonneg, hsound.roots, hsound.listed⟩ rfl rfl rfl rfl (by decide)
      (Fal.count_lt (by decide) (by decide))
  refine ⟨s₀, s, hinit, hrun, hrefs, fun v hv => ?_⟩
  have hcount := ((refCount_eq_refs hcounted.sound.count_nonneg hcounted hrun).1 1 v hv).1
  rw [hrefs] at hcount
  cases hinit
  exact hcount

set_option maxRecDepth 10000 in
/-- A closed descriptor is still counted; and when a process is reaped that had the only reference
to a file the vnode stays. -/
theorem refCount_ne_refs : ∃ s₀ : Files,
    Files.createInit .bump .bump (initrdInit [⟨['x'], .reg, 3⟩]) 5 9 = .ok s₀ ∧
      (∃ s v, ReflTransGen (fun s t => ∃ c, FileStep .bump .bump s c t) s₀ s ∧
        s.fal.mem.get 1 = some v ∧ v.refCount = 1 ∧ s.refs 1 = 0) ∧
      ∃ s t, ReflTransGen (fun s t => ∃ c, FileStep .bump .bump s c t) s₀ s ∧
        FileStep .bump .bump s (.waitpid 6) t ∧ s.refs 1 = 1 ∧ t.refs 1 = 0 ∧
        t.fal.mem.get 1 ≠ none := by
  refine ⟨_, rfl, ⟨_, _, (ReflTransGen.single ⟨_, .opened 5 (some ['/', 'x']) 0 0 rfl rfl rfl⟩).tail
    ⟨_, .closed 5 0 rfl rfl rfl⟩, rfl, rfl, ?_⟩, ⟨_, _,
      ((ReflTransGen.single ⟨_, .forked 5 6 7 rfl rfl rfl rfl⟩).tail
        ⟨_, .opened 6 (some ['/', 'x']) 0 0 rfl rfl rfl⟩).tail ⟨_, .exited 6 0 rfl rfl rfl⟩,
      .reaped 5 (-1) rfl rfl rfl, ?_, ?_, ?_⟩⟩
  · rfl
  · rfl
  · rfl
  · nofun

end References

end GarnOS
