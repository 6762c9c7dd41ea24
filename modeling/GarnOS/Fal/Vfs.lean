import GarnOS.Fal.VnodeUse

/-! The mounted file systems: `vfs_mount`, `vfs_unmount` and `vfs_get_by_fid`, and the ids they give
out. The mount flags and the names of the file systems are left out. -/
namespace GarnOS
open Function Outcome Chain Relation List Option

/-- The fields of a `vfs_t` that mounting links. `kmfree` keeps the bytes: they can be read and
written until the address is used again. -/
structure VfsLinks where
  next : Option ℕ
  vnodeCovered : Option ℕ
  isSystemPartition : Bool
  freed : Bool
  deriving DecidableEq, Repr

/-- Where `kmalloc` puts the next `vfs_t`: at an address that is not in use. -/
structure VfsAlloc where
  alloc : Objects VfsLinks → ℕ
  fresh : ∀ (m : Objects VfsLinks) (x : VfsLinks), m.get (alloc m) = some x → x.freed = true

def VfsAlloc.bump : VfsAlloc := ⟨Objects.bound, fun m x h => by simp [m.above _ le_rfl] at h⟩

/-- The file layer with the list of file systems; `nextFid` is the counter of `_vfs_gen_fid`. -/
structure Mounts where
  fal : Fal
  links : Objects VfsLinks
  lastVFS : ℕ
  nextFid : ℕ

namespace Mounts

def vfs (s : Mounts) (f : ℕ) : Except Fault VfsLinks :=
  match s.links.get f with
  | some x => .ok x
  | none => .error (.overrun f)

def setVfs (s : Mounts) (f : ℕ) (x : VfsLinks) : Mounts := { s with links := s.links.set f x }

def setFid (s : Mounts) (f n : ℕ) : Mounts :=
  { s with fal := { s.fal with
    vfss := update s.fal.vfss f ((s.fal.vfss f).map fun x => { x with fid := n }) } }

def next (s : Mounts) (f : ℕ) : Option ℕ := (s.links.get f).bind VfsLinks.next

def vnodeCovered (s : Mounts) (f : ℕ) : Option ℕ := (s.links.get f).bind VfsLinks.vnodeCovered

def fid (s : Mounts) (f : ℕ) : Option ℕ := (s.fal.vfss f).map Vfs.fid

end Mounts

/-- `vfs->fid = _vfs_gen_fid()`. Each mount keeps a vnode allocated, so that the counter does not
wrap. -/
def vfsGenFid (s : Mounts) (f : ℕ) : Mounts :=
  { s.setFid f s.nextFid with nextFid := s.nextFid + 1 }

/-- What a driver does before it mounts: a `vfs_t` filled with zeros, and its root vnode. -/
def vfsNew (k : Kmalloc) (m : VfsAlloc) (s : Mounts) (find : List Char → List Char → Found)
    (root : Entry) (isSystemPartition : Bool) : ℕ × Mounts :=
  let f := m.alloc s.links
  let (a, fal) := vnodeNew k s.fal f root
  (f, { s with
    fal := { fal with vfss := update fal.vfss f (some ⟨0, a, find⟩) }
    links := s.links.set f ⟨none, none, isSystemPartition, false⟩ })

def vfsMountFirst (s : Mounts) (f : ℕ) : Except Fault Mounts := do
  let s := { s with fal := { s.fal with rootVFS := f }, lastVFS := f }
  let x ← s.vfs f
  return vfsGenFid (s.setVfs f { x with next := none }) f

def vfsMountAt (k : Kmalloc) (s : Mounts) (f : ℕ) (mnt : List Char) :
    Except Fault (ℤ × Mounts) := do
  if mnt = ['/'] then return (-1, s)
  else
    match ← vnodeOpen k s.fal mnt O_DIRECTORY 0 with
    | (none, fal) => return (-fal.kerrno, { s with fal := fal })
    | (some a, fal) =>
      let s := { s with fal := fal }
      let last ← s.vfs s.lastVFS
      let s := { s.setVfs s.lastVFS { last with next := some f } with lastVFS := f }
      let v ← s.fal.vnode a
      let s := { s with fal := s.fal.setVnode a { v with vfsMountedHere := some f } }
      let x ← s.vfs f
      return (0, vfsGenFid (s.setVfs f { x with vnodeCovered := some a }) f)

/-- `devfs_lookup` after its search of the open vnodes. -/
def devfsFind (dir name : List Char) : Found :=
  let lookFor := if name.getLast? = some '/' then name.dropLast else name
  if dir = [] ∧ lookFor = "tty0".toList then .found ⟨[], .chr, 0, ⟨false, false⟩⟩
  else .missing none

def devfsInit (k : Kmalloc) (m : VfsAlloc) (s : Mounts) (mount : List Char) :
    Except Fault (ℤ × Mounts) :=
  let (f, s) := vfsNew k m s devfsFind ⟨[], .dir, 0, ⟨true, false⟩⟩ false
  vfsMountAt k s f mount

/-- The system partition takes the place of the root. -/
def vfsReplaceRoot (s : Mounts) (f : ℕ) : Except Fault Mounts := do
  let s := s.setFid f 0
  let root ← s.vfs s.fal.rootVFS
  let x ← s.vfs f
  let s := s.setVfs f { x with next := root.next }
  let s := if s.fal.rootVFS = s.lastVFS then { s with lastVFS := f } else s
  return { s with fal := { s.fal with rootVFS := f, vnodeListHead := none, vnodeListTail := none } }

/-- `vfs_mount` of the system partition. The drivers that `device_driver_autoreg` then loads make
calls of their own, after this one. -/
def vfsMountSystem (k : Kmalloc) (m : VfsAlloc) (s : Mounts) (f : ℕ) :
    Except Fault (ℤ × Mounts) := do
  let s ← vfsReplaceRoot s f
  let (r, s) ← devfsInit k m s "/dev/".toList
  if r ≠ 0 then .error (.panic "Failed to mount devfs!" "FAL" [])
  else return (0, s)

def vfsMount (k : Kmalloc) (m : VfsAlloc) (s : Mounts) (f : ℕ) (mnt : List Char) :
    Except Fault (ℤ × Mounts) := do
  let x ← s.vfs f
  if x.isSystemPartition then vfsMountSystem k m s f else vfsMountAt k s f mnt

def vfsUnlink (s : Mounts) (prev i : ℕ) : Except Fault Mounts := do
  let x ← s.vfs i
  let p ← s.vfs prev
  let s := s.setVfs prev { p with next := x.next }
  let x ← s.vfs i
  return s.setVfs i { x with freed := true }

/-- The loop of `vfs_unmount` from `i` on. More than `fuel` file systems are only met on a list with
a cycle. -/
def vfsUnmountFrom (s : Mounts) (f : ℕ) : ℕ → Option ℕ → Option ℕ → Except Fault (ℤ × Mounts)
  | _, _, none => .ok (1, s)
  | 0, _, some _ => .error .diverges
  | fuel + 1, prev, some i =>
    if i = f then
      match prev with
      | none => .ok (1, s)
      | some prev => do return (0, ← vfsUnlink s prev i)
    else do
      let x ← s.vfs i
      vfsUnmountFrom s f fuel (some i) x.next

def vfsUnmount (s : Mounts) (f : ℕ) : Except Fault (ℤ × Mounts) :=
  vfsUnmountFrom s f s.links.bound none (some s.fal.rootVFS)

def vfsGetByFidFrom (s : Mounts) (fid : ℕ) : ℕ → Option ℕ → Except Fault (Option ℕ)
  | _, none => .ok none
  | 0, some _ => .error .diverges
  | fuel + 1, some i => do
    let x ← s.fal.vfs i
    if x.fid = fid then return some i
    else
      let y ← s.vfs i
      vfsGetByFidFrom s fid fuel y.next

def vfsGetByFid (s : Mounts) (fid : ℕ) : Except Fault (Option ℕ) :=
  vfsGetByFidFrom s fid s.links.bound (some s.fal.rootVFS)

def noMounts : Mounts where
  fal := ⟨Objects.empty, none, none, fun _ => none, 0, 0, []⟩
  links := Objects.empty
  lastVFS := 0
  nextFid := 0

/-- A file system that is not the system partition is mounted as root. -/
def RootMounted (k : Kmalloc) (m : VfsAlloc) (s : Mounts) : Prop :=
  ∃ find root, vfsMountFirst (vfsNew k m noMounts find root false).2
    (vfsNew k m noMounts find root false).1 = .ok s

/-- The calls: each mount is one of a new `vfs_t`; the files may be used in between. -/
inductive MountStep (k : Kmalloc) (m : VfsAlloc) : Mounts → Mounts → Prop
  | mount {s t u : Mounts} {f : ℕ} {r : ℤ} (find : List Char → List Char → Found) (root : Entry)
      (isSystemPartition : Bool) (mnt : List Char)
      (hnew : vfsNew k m s find root isSystemPartition = (f, t))
      (h : vfsMount k m t f mnt = .ok (r, u)) : MountStep k m s u
  | unmount {s t : Mounts} {r : ℤ} (f : ℕ) (h : vfsUnmount s f = .ok (r, t)) : MountStep k m s t
  | files {s : Mounts} {fal : Fal} (h : FalStep k s.fal fal) : MountStep k m s { s with fal := fal }

section Fids
variable {k : Kmalloc} {m : VfsAlloc} {s t : Mounts} {f g b : ℕ} {l : List ℕ} {x : VfsLinks}
  {find : List Char → List Char → Found} {root : Entry} {system : Bool} {mnt : List Char} {r : ℤ}
  {p q : List ℕ}

theorem Mounts.vfs_eq_ok : s.vfs f = .ok x ↔ s.links.get f = some x := by
  unfold Mounts.vfs
  cases s.links.get f <;> simp

@[simp] theorem setVfs_get : (s.setVfs f x).links.get = update s.links.get f (some x) := rfl

@[simp] theorem setVfs_fal : (s.setVfs f x).fal = s.fal := rfl

@[simp] theorem setVfs_nextFid : (s.setVfs f x).nextFid = s.nextFid := rfl

theorem setVfs_next : (s.setVfs f x).next g = if g = f then x.next else s.next g := by
  by_cases hg : g = f
  all_goals simp [Mounts.next, hg]

theorem setFid_vfss {n : ℕ} : (s.setFid f n).fal.vfss g =
    (s.fal.vfss g).map fun x => if g = f then { x with fid := n } else x := by
  by_cases hg : g = f
  all_goals simp [Mounts.setFid, hg]

theorem setFid_fid {n : ℕ} :
    (s.setFid f n).fid g = (s.fid g).map fun i => if g = f then n else i := by
  by_cases hg : g = f
  all_goals simp [Mounts.fid, setFid_vfss, hg, comp_def]

def Mounts.Live (s : Mounts) (f : ℕ) : Prop := ∃ x, s.links.get f = some x ∧ x.freed = false

/-- The ids are different, and all were given out before `n`. -/
structure IdsBelow (n : ℕ) (ids : List (Option ℕ)) : Prop where
  nodup : ids.Nodup
  below : ∀ o ∈ ids, ∃ i < n, o = some i

theorem IdsBelow.sublist {n n' : ℕ} {ids ids' : List (Option ℕ)} (h : IdsBelow n ids)
    (hsub : ids' <+ ids) (hn : n ≤ n') : IdsBelow n' ids' :=
  ⟨h.nodup.sublist hsub, fun o ho => (h.below o (hsub.subset ho)).imp fun _ hi =>
    ⟨hi.1.trans_le hn, hi.2⟩⟩

theorem IdsBelow.add {n : ℕ} {ids : List (Option ℕ)} (h : IdsBelow n ids) :
    IdsBelow (n + 1) (ids ++ [some n]) := by
  have hnew : some n ∉ ids := by
    intro hmem
    obtain ⟨i, hi, heq⟩ := h.below _ hmem
    exact hi.ne' (some.inj heq)
  refine ⟨h.nodup.append (by simp) (by simpa using hnew), fun o ho => ?_⟩
  obtain ho | ho := mem_append.mp ho
  · exact (h.sublist (.refl _) n.le_succ).below o ho
  · exact ⟨n, n.lt_succ_self, by simpa using ho⟩

/-- The list from the root: its file systems are in use and have different ids, and the root has the
id 0. -/
structure Mounts.FidsOk (s : Mounts) (l : List ℕ) : Prop where
  visits : Visits s.next (some s.fal.rootVFS) l
  live : ∀ f ∈ l, s.Live f
  ids : IdsBelow s.nextFid (l.map s.fid)
  root : s.fid s.fal.rootVFS = some 0

section
variable (h : s.FidsOk l)
include h

theorem Mounts.FidsOk.root_mem : s.fal.rootVFS ∈ l :=
  mem_of_head? h.visits.head.symm

theorem Mounts.FidsOk.below (hf : f ∈ l) : ∃ n < s.nextFid, s.fid f = some n :=
  h.ids.below _ (mem_map_of_mem hf)

theorem Mounts.FidsOk.distinct : ∀ f ∈ l, ∀ g ∈ l, s.fid f = s.fid g → f = g := fun _ hf _ hg =>
  inj_on_of_nodup_map h.ids.nodup hf hg

theorem Mounts.FidsOk.congr (hlinks : ∀ f ∈ l, t.links.get f = s.links.get f)
    (hroot : t.fal.rootVFS = s.fal.rootVFS) (hfid : ∀ f ∈ l, t.fid f = s.fid f)
    (hnext : s.nextFid = t.nextFid) : t.FidsOk l := by
  refine ⟨?_, fun f hf => ?_, ?_, ?_⟩
  · rw [hroot]
    refine h.visits.congr fun f hf => ?_
    rw [Mounts.next, hlinks f hf, Mounts.next]
  · obtain ⟨x, hx, hlive⟩ := h.live f hf
    exact ⟨x, (hlinks f hf).trans hx, hlive⟩
  · rw [map_congr_left hfid, ← hnext]
    exact h.ids
  · rw [hroot, hfid _ h.root_mem, h.root]

theorem Mounts.FidsOk.not_mem_alloc : m.alloc s.links ∉ l := by
  intro hmem
  obtain ⟨x, hx, hlive⟩ := h.live _ hmem
  rw [m.fresh _ _ hx] at hlive
  cases hlive

end

structure Mounts.New (s : Mounts) (f : ℕ) : Prop where
  live : s.Live f
  next : s.next f = none
  fid : s.fid f = some 0

theorem vfsNew_get (hnew : vfsNew k m s find root system = (f, t)) :
    t.links.get f = some ⟨none, none, system, false⟩ := by
  cases hnew
  exact update_self ..

theorem vfsNew_fidsOk (hnew : vfsNew k m s find root system = (f, t)) (h : s.FidsOk l) :
    t.FidsOk l ∧ f ∉ l ∧ t.New f := by
  have hget := vfsNew_get hnew
  have hnext : t.next f = none := by rw [Mounts.next, hget, bind_some]
  cases hnew
  have hnot : m.alloc s.links ∉ l := h.not_mem_alloc
  have hne : ∀ g ∈ l, g ≠ m.alloc s.links := fun g hg heq => hnot (heq ▸ hg)
  refine ⟨h.congr (fun g hg => ?_) rfl (fun g hg => ?_) rfl, hnot, ⟨_, hget, rfl⟩, hnext, ?_⟩
  · simp [hne g hg]
  · simp [Mounts.fid, hne g hg]
  · simp [Mounts.fid]

theorem Mounts.FidsOk.fal (h : s.FidsOk l) {fal : Fal} (hsame : FilesUsed s.fal fal) :
    ({ s with fal := fal } : Mounts).FidsOk l :=
  h.congr (fun _ _ => rfl) hsame.rootVFS (fun f _ => by simp [Mounts.fid, hsame.vfss]) rfl

theorem vfsMountAt_cases (h : vfsMountAt k s f mnt = .ok (r, t)) : (mnt = ['/'] ∧ r = -1 ∧ t = s) ∨
    ∃ o fal, mnt ≠ ['/'] ∧ vnodeOpen k s.fal mnt O_DIRECTORY 0 = .ok (o, fal) ∧
      ((o = none ∧ r = -fal.kerrno ∧ t = { s with fal := fal }) ∨
      ∃ a v last x, o = some a ∧ r = 0 ∧ s.links.get s.lastVFS = some last ∧
        fal.mem.get a = some v ∧
        (s.setVfs s.lastVFS { last with next := some f }).links.get f = some x ∧
        t = vfsGenFid ({ s with
          fal := fal.setVnode a { v with vfsMountedHere := some f }
          links := (s.links.set s.lastVFS { last with next := some f }).set f
            { x with vnodeCovered := some a }
          lastVFS := f }) f) := by
  unfold vfsMountAt at h
  split at h
  next hmnt =>
    cases h
    exact .inl ⟨hmnt, rfl, rfl⟩
  next hmnt =>
    rw [bind_eq_ok] at h
    obtain ⟨⟨o, fal⟩, hopen, h⟩ := h
    refine .inr ⟨o, fal, hmnt, hopen, ?_⟩
    cases o with
    | none =>
      cases h
      exact .inl ⟨rfl, rfl, rfl⟩
    | some a =>
      simp only [bind_eq_ok, Mounts.vfs_eq_ok, Fal.vnode_eq_ok] at h
      obtain ⟨last, hlast, v, hv, x, hx, h⟩ := h
      cases h
      exact .inr ⟨a, v, last, x, rfl, rfl, hlast, hv, hx, rfl⟩

/-- The new file system is linked behind `lastVFS`, wherever that is, and at the vnode `a`; `fal` is
the state after that was opened. -/
structure MountEffect (s t : Mounts) (f a : ℕ) (fal : Fal) : Prop where
  lastVFS : t.lastVFS = f
  nextFid : t.nextFid = s.nextFid + 1
  rootVFS : t.fal.rootVFS = s.fal.rootVFS
  next : ∀ g, g ≠ f → t.next g = if g = s.lastVFS then some f else s.next g
  next_new : f ≠ s.lastVFS → t.next f = none
  live : ∀ g, s.Live g → t.Live g
  fid : ∀ g, t.fid g = if g = f then some s.nextFid else s.fid g
  vnodeCovered : ∀ g, t.vnodeCovered g = if g = f then some a else s.vnodeCovered g
  rootVnode : ∀ g, (t.fal.vfss g).map Vfs.rootVnode = (s.fal.vfss g).map Vfs.rootVnode
  vnode : ∃ v, fal.mem.get a = some v ∧
    t.fal = { fal.setVnode a { v with vfsMountedHere := some f } with vfss := t.fal.vfss }

theorem vfsMountAt_effect (hmount : vfsMountAt k s f mnt = .ok (r, t)) (hnew : s.New f) :
    (mnt = ['/'] ∧ r = -1 ∧ t = s) ∨
    (∃ fal, vnodeOpen k s.fal mnt O_DIRECTORY 0 = .ok (none, fal) ∧ t = { s with fal := fal }) ∨
    ∃ a fal, mnt ≠ ['/'] ∧ vnodeOpen k s.fal mnt O_DIRECTORY 0 = .ok (some a, fal) ∧ r = 0 ∧
      MountEffect s t f a fal := by
  obtain ⟨hmnt, rfl, rfl⟩ | ⟨o, fal, hmnt, hopen, ⟨rfl, -, rfl⟩ |
    ⟨a, v, last, x, rfl, rfl, hlast, hv, hx, rfl⟩⟩ := vfsMountAt_cases hmount
  · exact .inl ⟨hmnt, rfl, rfl⟩
  · exact .inr (.inl ⟨fal, hopen, rfl⟩)
  have hsame := vnodeOpen_filesUsed hopen
  refine .inr (.inr ⟨a, fal, hmnt, hopen, rfl, ?_⟩)
  set t := vfsGenFid _ f with ht
  have hlinks : ∀ g, t.links.get g = if g = f then some { x with vnodeCovered := some a }
      else if g = s.lastVFS then some { last with next := some f } else s.links.get g := by
    intro g
    simp [ht, vfsGenFid, Mounts.setFid, Objects.set_get, update_apply]
  have hxlast : f ≠ s.lastVFS → s.links.get f = some x := by
    intro hne
    rwa [setVfs_get, update_of_ne hne] at hx
  have hxfreed : x.freed = false := by
    obtain ⟨y, hy, hlive⟩ := hnew.live
    by_cases hfl : f = s.lastVFS
    · rw [← hfl, hy] at hlast
      rw [← hfl, setVfs_get, update_self] at hx
      cases hlast
      cases hx
      exact hlive
    · cases hy.symm.trans (hxlast hfl)
      exact hlive
  constructor
  case lastVFS => rfl
  case nextFid => rfl
  case rootVFS => exact hsame.rootVFS
  case next =>
    intro g hg
    rw [Mounts.next, hlinks, if_neg hg]
    split <;> rfl
  case next_new =>
    intro hne
    have hnone := hnew.next
    rw [Mounts.next, hxlast hne] at hnone
    rw [Mounts.next, hlinks, if_pos rfl]
    exact hnone
  case live =>
    rintro g ⟨y, hy, hlive⟩
    by_cases hg : g = f
    · exact ⟨_, (hlinks g).trans (if_pos hg), hxfreed⟩
    · by_cases hgl : g = s.lastVFS
      · rw [hgl, hlast] at hy
        cases hy
        exact ⟨_, (hlinks g).trans ((if_neg hg).trans (if_pos hgl)), hlive⟩
      · exact ⟨y, by rw [hlinks, if_neg hg, if_neg hgl, hy], hlive⟩
  case fid =>
    intro g
    have hzero : (fal.vfss f).map Vfs.fid = some 0 := hsame.vfss ▸ hnew.fid
    obtain ⟨y, hy, -⟩ := map_eq_some_iff.mp hzero
    by_cases hg : g = f
    all_goals simp [ht, vfsGenFid, Mounts.setFid, Mounts.fid, hg, hsame.vfss ▸ hy, hsame.vfss]
  case vnodeCovered =>
    intro g
    rw [Mounts.vnodeCovered, hlinks]
    split
    · rfl
    · split
      next hgl =>
        rw [Mounts.vnodeCovered, hgl, hlast]
        rfl
      next => rfl
  case rootVnode =>
    intro g
    by_cases hg : g = f
    · simp [ht, vfsGenFid, Mounts.setFid, hg, hsame.vfss, comp_def]
    · simp [ht, vfsGenFid, Mounts.setFid, hg, hsame.vfss]
  case vnode => exact ⟨v, hv, rfl⟩

section Effect
variable {a : ℕ} {fal : Fal} (heffect : MountEffect s t f a fal)
include heffect

theorem MountEffect.rootFid {l : List ℕ} (h : s.FidsOk l) (hf : f ∉ l) :
    t.fid t.fal.rootVFS = some 0 := by
  rw [heffect.rootVFS, heffect.fid, if_neg (ne_of_mem_of_not_mem h.root_mem hf), h.root]

theorem MountEffect.cut {p q : List ℕ} (h : s.FidsOk (p ++ s.lastVFS :: q))
    (hf : f ∉ p ++ s.lastVFS :: q) (hnew : s.New f) : t.FidsOk (p ++ [s.lastVFS, f]) := by
  have hne : ∀ g ∈ p ++ s.lastVFS :: q, g ≠ f := fun g hg heq => hf (heq ▸ hg)
  have hlast : s.lastVFS ∈ p ++ s.lastVFS :: q := by simp
  have hsplit : p ++ [s.lastVFS, f] = (p ++ [s.lastVFS]) ++ [f] := by simp
  have hsub : p ++ [s.lastVFS] <+ p ++ s.lastVFS :: q := by simp
  refine ⟨?_, fun g hg => ?_, ?_, heffect.rootFid h hf⟩
  · rw [heffect.rootVFS]
    refine h.visits.cut (fun g hg => ?_) ?_ (heffect.next_new (hne _ hlast).symm)
    · rw [heffect.next g (hne g (mem_append_left _ hg)), if_neg]
      rintro rfl
      exact (disjoint_of_nodup_append h.visits.nodup) hg mem_cons_self
    · rw [heffect.next _ (hne _ hlast), if_pos rfl]
  · rw [hsplit, mem_append, mem_singleton] at hg
    obtain hg | rfl := hg
    · exact heffect.live g (h.live g (hsub.subset hg))
    · exact heffect.live g hnew.live
  · have hold : ∀ g ∈ p ++ [s.lastVFS], t.fid g = s.fid g := fun g hg => by
      rw [heffect.fid, if_neg (hne g (hsub.subset hg))]
    rw [hsplit, map_append, map_congr_left hold, map_singleton, heffect.fid, if_pos rfl,
      heffect.nextFid]
    exact (h.ids.sublist (hsub.map _) le_rfl).add

theorem MountEffect.fidsOk (h : s.FidsOk l) (hf : f ∉ l) (hnew : s.New f) : ∃ l', t.FidsOk l' := by
  by_cases hlast : s.lastVFS ∈ l
  · obtain ⟨p, q, rfl⟩ := append_of_mem hlast
    exact ⟨_, heffect.cut h hf hnew⟩
  · have hne : ∀ g ∈ l, g ≠ f := fun g hg heq => hf (heq ▸ hg)
    refine ⟨l, ?_, fun g hg => heffect.live g (h.live g hg), ?_, heffect.rootFid h hf⟩
    · rw [heffect.rootVFS]
      refine h.visits.congr fun g hg => ?_
      rw [heffect.next g (hne g hg), if_neg (ne_of_mem_of_not_mem hg hlast)]
    · have hold : ∀ g ∈ l, t.fid g = s.fid g := fun g hg => by
        rw [heffect.fid, if_neg (hne g hg)]
      rw [map_congr_left hold, heffect.nextFid]
      exact h.ids.sublist (.refl _) (Nat.le_succ _)

end Effect

theorem vfsMountAt_fidsOk (hmount : vfsMountAt k s f mnt = .ok (r, t)) (h : s.FidsOk l) (hf : f ∉ l)
    (hnew : s.New f) : ∃ l', t.FidsOk l' := by
  obtain ⟨-, -, rfl⟩ | ⟨fal, hopen, rfl⟩ | ⟨a, fal, -, -, -, heffect⟩ :=
    vfsMountAt_effect hmount hnew
  · exact ⟨l, h⟩
  · exact ⟨l, h.fal (vnodeOpen_filesUsed hopen)⟩
  · exact heffect.fidsOk h hf hnew

theorem vfsReplaceRoot_cases (h : vfsReplaceRoot s f = .ok t) :
    ∃ root x, s.links.get s.fal.rootVFS = some root ∧ s.links.get f = some x ∧
      t.links = s.links.set f { x with next := root.next } ∧ t.fal.rootVFS = f ∧
      t.fal.vfss = (s.setFid f 0).fal.vfss ∧ t.fal.mem = s.fal.mem ∧ t.nextFid = s.nextFid := by
  simp only [vfsReplaceRoot, bind_eq_ok, Mounts.vfs_eq_ok] at h
  obtain ⟨root, hroot, x, hx, h⟩ := h
  refine ⟨root, x, hroot, hx, ?_⟩
  cases h
  by_cases hlast : s.fal.rootVFS = s.lastVFS
  all_goals simp [Mounts.setFid, Mounts.setVfs, hlast]

theorem vfsReplaceRoot_fidsOk (hreplace : vfsReplaceRoot s f = .ok t) (h : s.FidsOk l) (hf : f ∉ l)
    (hnew : s.New f) : ∃ l', t.FidsOk l' := by
  obtain ⟨root, x, hroot, hx, hlinks, hrootVFS, hvfss, -, hnextFid⟩ := vfsReplaceRoot_cases hreplace
  obtain ⟨q, rfl⟩ : ∃ q, l = s.fal.rootVFS :: q :=
    ⟨l.tail, (cons_head?_tail h.visits.head.symm).symm⟩
  have hne : ∀ g ∈ q, g ≠ f := fun g hg heq => hf (heq ▸ mem_cons_of_mem _ hg)
  have hget : ∀ g, g ≠ f → t.links.get g = s.links.get g := fun g hg => by simp [hlinks, hg]
  have hfid : ∀ g, t.fid g = s.fid g := by
    intro g
    have hset : t.fid g = (s.setFid f 0).fid g := congrArg (fun o => (o g).map Vfs.fid) hvfss
    rw [hset, setFid_fid]
    by_cases hg : g = f
    · rw [hg, hnew.fid, map_some, if_pos rfl]
    · simp [hg]
  have hnext : t.next f = s.next s.fal.rootVFS := by
    simp [hlinks, Mounts.next, hroot]
  refine ⟨f :: q, ⟨congrArg some hrootVFS, ?_⟩, ?_, ?_, ?_⟩
  · rw [hnext]
    refine h.visits.2.congr fun g hg => ?_
    rw [Mounts.next, hget g (hne g hg), Mounts.next]
  · intro g hg
    obtain rfl | hg := mem_cons.mp hg
    · obtain ⟨y, hy, hlive⟩ := hnew.live
      cases hx.symm.trans hy
      exact ⟨{ x with next := root.next }, by simp [hlinks], hlive⟩
    · obtain ⟨y, hy, hlive⟩ := h.live g (mem_cons_of_mem _ hg)
      exact ⟨y, (hget g (hne g hg)).trans hy, hlive⟩
  · have hids := h.ids
    rw [map_cons, h.root, ← hnew.fid, ← map_cons] at hids
    rwa [map_congr_left fun g _ => hfid g, hnextFid]
  · rw [hrootVFS, hfid, hnew.fid]

theorem vfsMount_cases (hmount : vfsMount k m s f mnt = .ok (r, t)) :
    (∃ u r', vfsReplaceRoot s f = .ok u ∧ devfsInit k m u "/dev/".toList = .ok (r', t)) ∨
      vfsMountAt k s f mnt = .ok (r, t) := by
  simp only [vfsMount, bind_eq_ok] at hmount
  obtain ⟨x, -, hmount⟩ := hmount
  split at hmount
  · simp only [vfsMountSystem, bind_eq_ok] at hmount
    obtain ⟨u, hreplace, ⟨r', w⟩, hdevfs, hmount⟩ := hmount
    split at hmount
    · cases hmount
    cases hmount
    exact .inl ⟨u, r', hreplace, hdevfs⟩
  · exact .inr hmount

theorem vfsMount_fidsOk (hmount : vfsMount k m s f mnt = .ok (r, t)) (h : s.FidsOk l) (hf : f ∉ l)
    (hnew : s.New f) : ∃ l', t.FidsOk l' := by
  obtain ⟨u, r', hreplace, hdevfs⟩ | hat := vfsMount_cases hmount
  · obtain ⟨l', hl'⟩ := vfsReplaceRoot_fidsOk hreplace h hf hnew
    obtain ⟨hnewOk, hnot, hnew'⟩ := @vfsNew_fidsOk k m _ _ _ _ _ _ _ rfl hl'
    exact vfsMountAt_fidsOk hdevfs hnewOk hnot hnew'
  · exact vfsMountAt_fidsOk hat h hf hnew

/-- The loop of `vfs_unmount` takes the file system out of the list, or changes nothing. -/
theorem vfsUnmountFrom_cases {fuel : ℕ} {i : Option ℕ}
    (hvisits : Visits s.next (some s.fal.rootVFS) (p ++ q)) (hi : i = q.head?)
    (h : vfsUnmountFrom s f fuel p.getLast? i = .ok (r, t)) :
    (r = 1 ∧ t = s) ∨ ∃ p' prev q', p ++ q = p' ++ prev :: f :: q' ∧ r = 0 ∧
      vfsUnlink s prev f = .ok t := by
  induction fuel generalizing i p q with
  | zero =>
    cases i with
    | none =>
      cases h
      exact .inl ⟨rfl, rfl⟩
    | some i => cases h
  | succ fuel ih =>
    cases i with
    | none =>
      cases h
      exact .inl ⟨rfl, rfl⟩
    | some i =>
      obtain ⟨q', rfl⟩ : ∃ q', q = i :: q' := ⟨q.tail, (cons_head?_tail hi.symm).symm⟩
      unfold vfsUnmountFrom at h
      split at h
      next hif =>
        subst hif
        rcases eq_nil_or_concat' p with rfl | ⟨p', prev, rfl⟩
        · cases h
          exact .inl ⟨rfl, rfl⟩
        · rw [getLast?_concat] at h
          simp only [bind_eq_ok] at h
          obtain ⟨u, hu, h⟩ := h
          cases h
          exact .inr ⟨p', prev, q', by simp, rfl, hu⟩
      next hif =>
        simp only [bind_eq_ok, Mounts.vfs_eq_ok] at h
        obtain ⟨x, hx, h⟩ := h
        have hnext : x.next = q'.head? := by
          rw [← hvisits.next_eq, Mounts.next, hx, bind_some]
        have hlast : some i = (p ++ [i]).getLast? := by simp
        rw [hlast] at h
        have hvisits' : Visits s.next (some s.fal.rootVFS) ((p ++ [i]) ++ q') := by
          simpa using hvisits
        simpa using ih hvisits' hnext h

theorem vfsUnlink_fidsOk {prev : ℕ} (hunlink : vfsUnlink s prev f = .ok t)
    (h : s.FidsOk (p ++ prev :: f :: q)) : t.FidsOk (p ++ prev :: q) := by
  have hsplit : p ++ prev :: f :: q = (p ++ [prev]) ++ f :: q := by simp
  have hnodup := h.visits.nodup
  rw [hsplit] at hnodup
  have hf : f ∉ p ++ prev :: q := by
    have hmiddle := (nodup_cons.mp (nodup_middle.mp hnodup)).1
    simpa using hmiddle
  have hprev : prev ≠ f := by
    rintro rfl
    exact hf (by simp)
  simp only [vfsUnlink, bind_eq_ok, Mounts.vfs_eq_ok] at hunlink
  obtain ⟨x, hx, y, hy, z, hz, hunlink⟩ := hunlink
  cases hunlink
  have hsub : p ++ prev :: q <+ p ++ prev :: f :: q := by simp
  have hget : ∀ g, g ≠ f → g ≠ prev →
      ((s.setVfs prev { y with next := x.next }).setVfs f { z with freed := true }).links.get g =
        s.links.get g := by
    intro g hgf hgp
    simp [hgf, hgp]
  refine ⟨?_, fun g hg => ?_, h.ids.sublist (hsub.map _) le_rfl, h.root⟩
  · have hvisits := h.visits
    rw [hsplit] at hvisits
    suffices hremove : Visits ((s.setVfs prev { y with next := x.next }).setVfs f
        { z with freed := true }).next (if p ++ [prev] = [] then s.next f else some s.fal.rootVFS)
        (p ++ [prev] ++ q) by simpa using hremove
    apply hvisits.remove
    · intro g hg hlast
      have hgp : g ≠ prev := by simpa [eq_comm] using hlast
      have hgf : g ≠ f := by
        rintro rfl
        exact hf (by simpa using hg)
      rw [Mounts.next, hget g hgf hgp, Mounts.next]
    · intro g hg
      obtain rfl : prev = g := by simpa using hg
      rw [setVfs_next, if_neg hprev, setVfs_next, if_pos rfl, Mounts.next, hx, bind_some]
  · have hgf : g ≠ f := fun heq => hf (heq ▸ hg)
    obtain ⟨w, hw, hlive⟩ := h.live g (hsub.subset hg)
    by_cases hgp : g = prev
    · subst hgp
      cases hy.symm.trans hw
      exact ⟨{ y with next := x.next }, by simp [hgf], hlive⟩
    · exact ⟨w, (hget g hgf hgp).trans hw, hlive⟩

theorem MountStep.fidsOk (hstep : MountStep k m s t) (h : ∃ l, s.FidsOk l) : ∃ l, t.FidsOk l := by
  obtain ⟨l, h⟩ := h
  cases hstep with
  | mount find root system mnt hvfs hmount =>
    obtain ⟨hu, hnot, hnew⟩ := vfsNew_fidsOk hvfs h
    exact vfsMount_fidsOk hmount hu hnot hnew
  | unmount f hunmount =>
    have hvisits : Visits s.next (some s.fal.rootVFS) ([] ++ l) := h.visits
    obtain ⟨-, rfl⟩ | ⟨p, prev, q, hsplit, -, hunlink⟩ :=
      vfsUnmountFrom_cases hvisits h.visits.head hunmount
    · exact ⟨l, h⟩
    · rw [nil_append] at hsplit
      subst hsplit
      exact ⟨_, vfsUnlink_fidsOk hunlink h⟩
  | files hfiles => exact ⟨l, h.fal hfiles.filesUsed⟩

theorem RootMounted.cases (h : RootMounted k m s) : ∃ find e,
    s.links.get = update (fun _ => none) s.fal.rootVFS (some ⟨none, none, false, false⟩) ∧
    s.fal.vfss = update (fun _ => none) s.fal.rootVFS
      (some ⟨0, k.alloc Objects.empty, find⟩) ∧
    s.fal.mem = (vnodeNew k noMounts.fal s.fal.rootVFS e).2.mem ∧
    s.fal.vnodeListHead = none ∧ s.fal.vnodeListTail = none ∧
    s.lastVFS = s.fal.rootVFS ∧ s.nextFid = 1 := by
  obtain ⟨find, root, h⟩ := h
  simp only [vfsMountFirst, bind_eq_ok, Mounts.vfs_eq_ok] at h
  obtain ⟨x, hx, h⟩ := h
  have hnew : (vfsNew k m noMounts find root false).2.links.get
      (vfsNew k m noMounts find root false).1 = some ⟨none, none, false, false⟩ :=
    update_self ..
  cases hnew.symm.trans hx
  cases h
  refine ⟨find, root, update_idem .., ?_, rfl, rfl, rfl, rfl, rfl⟩
  simp [vfsGenFid, Mounts.setFid, Mounts.setVfs, vfsNew, vnodeNew, noMounts]

theorem RootMounted.fidsOk (h : RootMounted k m s) : s.FidsOk [s.fal.rootVFS] := by
  obtain ⟨find, -, hlinks, hvfss, -, -, -, -, hnext⟩ := h.cases
  have hfid : s.fid s.fal.rootVFS = some 0 := by
    rw [Mounts.fid, hvfss, update_self, map_some]
  refine ⟨⟨rfl, ?_⟩, fun f hf => ?_, ⟨by simp, by simp [hfid, hnext]⟩, hfid⟩
  · simp [Mounts.next, hlinks]
  · obtain rfl := mem_singleton.mp hf
    exact ⟨_, by rw [hlinks, update_self], rfl⟩

def Mounts.Mounted (s : Mounts) (f : ℕ) : Prop :=
  ReflTransGen (fun a b => s.next a = some b) s.fal.rootVFS f

end Fids

end GarnOS
