import GarnOS.Fal.Vfs
import GarnOS.Fal.VnodeList

/-! The links between mounted file systems and the vnodes they cover, over whole runs of
`vfs_mount` and `vfs_unmount`. -/
namespace GarnOS
open Outcome Chain Relation List Function Option

def Fal.mountedHere (s : Fal) (a : ℕ) : Option ℕ := (s.mem.get a).bind Vnode.vfsMountedHere

section Lookups
variable {k : Kmalloc} {s t : Fal} {a b : ℕ} {c : Cursor} {path : List Char} {r : Option ℕ}
  {v : Vnode} {flags mode : BitVec 32}

theorem setVnode_mountedHere :
    (s.setVnode a v).mountedHere b = if b = a then v.vfsMountedHere else s.mountedHere b := by
  by_cases hb : b = a
  all_goals simp [Fal.mountedHere, hb]

theorem mountedHere_setVnode_eq {w : Vnode} (hv : s.mem.get a = some v)
    (hw : w.vfsMountedHere = v.vfsMountedHere) : (s.setVnode a w).mountedHere = s.mountedHere := by
  funext b
  rw [setVnode_mountedHere]
  split
  next hb => rw [hb, hw, Fal.mountedHere, hv, bind_some]
  next => rfl

theorem LinksOnly.mountedHere (h : LinksOnly s t) : t.mountedHere = s.mountedHere := by
  funext b
  have hproj : ∀ o : Option Vnode,
      o.bind Vnode.vfsMountedHere = (o.map Vnode.unlinked).bind Vnode.vfsMountedHere := by
    intro o
    cases o <;> rfl
  rw [Fal.mountedHere, hproj, h.content b, ← hproj, Fal.mountedHere]

theorem LookupEffect.mountedHere (h : LookupEffect s t) : t.mountedHere = s.mountedHere := by
  funext b
  cases h with
  | errno e => rfl
  | create a v hfresh hcount hmount =>
    rw [setVnode_mountedHere]
    split
    next hb => rw [hmount, hb, Fal.mountedHere, hfresh, bind_none]
    next => rfl
  | recycle a v hv hunused =>
    by_cases hb : b = a
    · have hmount : v.vfsMountedHere = none := by
        by_contra hne
        exact hunused (.inr (.inr hne))
      simp [Fal.mountedHere, hb, hv, hmount]
    · simp [Fal.mountedHere, hb]

/-- Vnodes are kept open by the mounts only, and the list leads to open vnodes. -/
structure Fal.Quiet (s : Fal) : Prop where
  nonneg : ∀ a v, s.mem.get a = some v → 0 ≤ v.refCount
  roots : ∀ f x, s.vfss f = some x → ∃ v, s.mem.get x.rootVnode = some v
  pointed : ∀ a, s.Pointed a → s.Open a
  mounted : ∀ a, s.Open a → s.mountedHere a ≠ none

theorem Fal.Quiet.sound (h : s.Quiet) : s.Sound :=
  ⟨h.nonneg, h.roots, fun a ha _ => h.pointed a ha⟩

theorem LookupEffect.quiet (heffect : LookupEffect s t) (h : s.Quiet) : t.Quiet where
  nonneg := (heffect.sound h.sound).nonneg
  roots := (heffect.sound h.sound).roots
  pointed := fun a ha => heffect.open_iff.mpr (h.pointed a (heffect.pointed ha))
  mounted := by
    intro a ha
    rw [heffect.mountedHere]
    exact h.mounted a (heffect.open_iff.mp ha)

theorem LookupEffect.quiet_run (heffect : ReflTransGen LookupEffect s t) (h : s.Quiet) :
    t.Quiet ∧ t.mountedHere = s.mountedHere := by
  induction heffect with
  | refl => exact ⟨h, rfl⟩
  | tail _ hstep ih => exact ⟨hstep.quiet ih.1, hstep.mountedHere.trans ih.2⟩

/-- A lookup goes on from a mount point at the root of what is mounted there, so that it does not
recycle the mount point. -/
theorem Fal.Quiet.recyclesClosed (h : s.Quiet) (hc : CursorOk s c) : RecyclesClosed s c := by
  intro v vfs hv hvfs hroot _ _
  obtain ⟨x, hx, heq⟩ | ⟨w, hw, hmount, -⟩ := hc
  · cases hvfs.symm.trans hx
    exact absurd heq.symm hroot
  · cases hv.symm.trans hw
    by_contra hpos
    refine h.mounted c.vnode ⟨v, hv, not_le.mp hpos⟩ ?_
    rw [Fal.mountedHere, hv, bind_some, hmount]

theorem Fal.Quiet.walkOk (h : s.Quiet) : WalkOk k s path := by
  intro rest root hpath hroot x hrun _
  suffices hinv : x.1.Quiet ∧ CursorOk x.1 x.2 from hinv.1.recyclesClosed hinv.2
  induction hrun with
  | refl => exact ⟨LookupEffect.quiet (.errno 0) h, .inl ⟨root, hroot, rfl⟩⟩
  | tail _ hround ih =>
    obtain ⟨hquiet, hcursor⟩ := ih hround.1
    obtain ⟨heffect, hnext⟩ :=
      lookupStep_effect hquiet.sound hcursor (hquiet.recyclesClosed hcursor) hround.2
    exact ⟨(LookupEffect.quiet_run heffect hquiet).1, hnext _ rfl⟩

theorem Fal.Quiet.mountAt {vfss : ℕ → Option Vfs} (f : ℕ) (hs : s.Sound)
    (hpointed : ∀ x, s.Pointed x → s.Open x)
    (hmounted : ∀ x, s.Open x → s.mountedHere x ≠ none ∨ x = a) (hv : s.mem.get a = some v)
    (hroots : ∀ g, (vfss g).map Vfs.rootVnode = (s.vfss g).map Vfs.rootVnode) :
    ({ s.setVnode a { v with vfsMountedHere := some f } with vfss := vfss } : Fal).Quiet := by
  set w : Vnode := { v with vfsMountedHere := some f }
  have hsound : (s.setVnode a w).Sound := by
    refine hs.setVnode hv rfl rfl (hs.nonneg a v hv) fun hp hr => ?_
    obtain ⟨u, hu, hpos⟩ := hs.listed a hp hr
    cases hv.symm.trans hu
    exact hpos
  have hopen : ∀ x, (s.setVnode a w).Open x ↔ s.Open x := by
    intro x
    rw [setVnode_open]
    split
    next hxa => simp [Fal.Open, hxa, hv, w]
    next => rfl
  refine ⟨hsound.nonneg, fun g y hg => ?_, fun x hx => ?_, fun x hx => ?_⟩
  · have hroot := hroots g
    rw [show vfss g = some y from hg, map_some, eq_comm, map_eq_some_iff] at hroot
    obtain ⟨y', hy', heq⟩ := hroot
    rw [← heq]
    exact hsound.roots g y' hy'
  · have hx' : (s.setVnode a w).Pointed x := hx
    exact (hopen x).mpr (hpointed x (hx'.of_setVnode hv rfl rfl))
  · have hmount : (s.setVnode a w).mountedHere x ≠ none := by
      rw [setVnode_mountedHere]
      by_cases hxa : x = a
      · simp [hxa, w]
      · rw [if_neg hxa]
        exact (hmounted x ((hopen x).mp hx)).resolve_right hxa
    exact hmount

theorem vnodeOpenAt_pointed (hs : s.Sound) (hpointed : ∀ x, s.Pointed x → s.Open x)
    (h : vnodeOpenAt s a path flags mode = .ok (r, t)) :
    t.mountedHere = s.mountedHere ∧ (∀ x, t.Pointed x → t.Open x) ∧
      ∀ x, t.Open x → s.Open x ∨ r = some x := by
  obtain ⟨v, hv, ⟨-, e, rfl⟩ | ⟨found, rfl, -, hcase⟩⟩ := vnodeOpenAt_cases h
  · exact ⟨rfl, hpointed, fun x hx => .inl hx⟩
  have hpos : 0 < v.referenced.refCount := by
    have hnonneg := hs.nonneg a v hv
    simp only [Vnode.referenced]
    omega
  have hmounted : (s.setVnode a v.referenced).mountedHere = s.mountedHere :=
    mountedHere_setVnode_eq hv rfl
  have hopen : ∀ x, (s.setVnode a v.referenced).Open x ↔ s.Open x ∨ some a = some x := by
    intro x
    rw [setVnode_open]
    by_cases hx : x = a
    · simp [hx, hpos]
    · simp [hx, Ne.symm hx]
  have hreferenced : ∀ x, (s.setVnode a v.referenced).Pointed x →
      (s.setVnode a v.referenced).Open x := fun x hx =>
    (hopen x).mpr (.inl (hpointed x (hx.of_setVnode hv rfl rfl)))
  obtain ⟨-, rfl⟩ | ⟨-, u, w, hadd, hw, rfl⟩ := hcase
  · exact ⟨hmounted, hreferenced, fun x hx => (hopen x).mp hx⟩
  obtain ⟨hlinks, hadded⟩ := vnodeListAdd_links hadd
  set w' : Vnode := { w with flags := flags, mode := mode }
  have hsame : ∀ x, (u.setVnode a w').Open x ↔ (s.setVnode a v.referenced).Open x := by
    intro x
    rw [← hlinks.open_iff, setVnode_open]
    split
    next hxa => simp [Fal.Open, hxa, hw, w']
    next => rfl
  refine ⟨?_, fun x hx => ?_, fun x hx => (hopen x).mp ((hsame x).mp hx)⟩
  · have hflags : (u.setVnode a w').mountedHere = u.mountedHere := mountedHere_setVnode_eq hw rfl
    rw [hflags, hlinks.mountedHere, hmounted]
  · rw [hsame]
    obtain hx | rfl := hadded x (hx.of_setVnode hw rfl rfl)
    · exact hreferenced x hx
    · exact (hopen x).mpr (.inr rfl)

/-- When only mounts keep vnodes open, `vnode_open` opens one vnode more, and the mount points stay
as they are. -/
theorem Fal.Quiet.vnodeOpen (h : s.Quiet) (hopen : vnodeOpen k s path flags mode = .ok (r, t)) :
    t.Sound ∧ t.mountedHere = s.mountedHere ∧ (∀ x, t.Pointed x → t.Open x) ∧
      ∀ x, t.Open x → t.mountedHere x ≠ none ∨ r = some x := by
  obtain ⟨o, u, hlookup, hcase⟩ := vnodeOpen_cases hopen
  obtain ⟨hu, hmounted⟩ := LookupEffect.quiet_run (vnodeLookup_effect h.sound h.walkOk hlookup) h
  refine ⟨(vnodeOpen_sound h.sound h.walkOk hopen).1, ?_⟩
  obtain ⟨-, -, rfl⟩ | ⟨a, -, hat⟩ := hcase
  · exact ⟨hmounted, hu.pointed, fun x hx => .inl (hu.mounted x hx)⟩
  · obtain ⟨hsame, hpointed, hopened⟩ := vnodeOpenAt_pointed hu.sound hu.pointed hat
    refine ⟨hsame.trans hmounted, hpointed, fun x hx => (hopened x hx).imp_left fun hx => ?_⟩
    rw [hsame]
    exact hu.mounted x hx

end Lookups

inductive VfsEvent where
  | mount (f : ℕ) (ret : ℤ)
  | unmount (f : ℕ) (ret : ℤ)
  deriving DecidableEq, Repr

def standingStep (l : List ℕ) : VfsEvent → List ℕ
  | .mount f ret => if ret = 0 then l ++ [f] else l
  | .unmount f ret => if ret = 0 then l.erase f else l

/-- The file systems mounted and not unmounted since the root mount. -/
def standing (root : ℕ) (es : List VfsEvent) : List ℕ := es.foldl standingStep [root]

/-- `lastVFS` is the last of the list from `rootVFS`, the list has the given file systems, each
found by its id, and vnodes and file systems point to each other. -/
def Mounts.InOrder (s : Mounts) (mounted : List ℕ) : Prop :=
  ∃ l, Visits s.next (some s.fal.rootVFS) l ∧ l.getLast? = some s.lastVFS ∧
    (∀ f ∈ mounted, f ∈ l ∧ ∃ n, s.fid f = some n ∧ vfsGetByFid s n = .ok (some f)) ∧
    ∀ a i, s.fal.mountedHere a = some i ↔ i ∈ l ∧ s.vnodeCovered i = some a

/-- Mounts of new file systems at existing directories, and unmounts that are not of the root. -/
inductive VfsCall (k : Kmalloc) (m : VfsAlloc) : Mounts → VfsEvent → Mounts → Prop
  | mount {s t u : Mounts} {f : ℕ} {r : ℤ} (find : List Char → List Char → Found) (root : Entry)
      (isSystemPartition : Bool) (mnt : List Char)
      (hnew : vfsNew k m s find root isSystemPartition = (f, t))
      (hdir : ∃ a fal, vnodeOpen k t.fal mnt O_DIRECTORY 0 = .ok (some a, fal))
      (h : vfsMount k m t f mnt = .ok (r, u)) : VfsCall k m s (.mount f r) u
  | unmount {s t : Mounts} {r : ℤ} (f : ℕ) (hroot : f ≠ s.fal.rootVFS)
      (h : vfsUnmount s f = .ok (r, t)) : VfsCall k m s (.unmount f r) t

/-- The calls that keep the links: no mount is of the system partition or at a vnode where something
is mounted, and no unmount is of a file system on the list. -/
inductive LinkingCall (k : Kmalloc) (m : VfsAlloc) : Mounts → VfsEvent → Mounts → Prop
  | mount {s t u : Mounts} {f : ℕ} {r : ℤ} (find : List Char → List Char → Found) (root : Entry)
      (mnt : List Char) (hnew : vfsNew k m s find root false = (f, t))
      (hdir : ∃ a fal, vnodeOpen k t.fal mnt O_DIRECTORY 0 = .ok (some a, fal) ∧
        t.fal.mountedHere a = none)
      (h : vfsMount k m t f mnt = .ok (r, u)) : LinkingCall k m s (.mount f r) u
  | unmount {s t : Mounts} {r : ℤ} (f : ℕ) (hout : ¬s.Mounted f)
      (h : vfsUnmount s f = .ok (r, t)) : LinkingCall k m s (.unmount f r) t

section Runs
variable {k : Kmalloc} {m : VfsAlloc} {s t u : Mounts} {e : VfsEvent} {es : List VfsEvent}
  {l : List ℕ} {f : ℕ}

/-- The list is `l` and the mounts are the only users of vnodes. -/
structure Mounts.Tidy (s : Mounts) (l : List ℕ) : Prop where
  fids : s.FidsOk l
  last : l.getLast? = some s.lastVFS
  quiet : s.fal.Quiet
  covered : ∀ a i, s.fal.mountedHere a = some i ↔ i ∈ l ∧ s.vnodeCovered i = some a

theorem Mounts.FidsOk.length_le (h : s.FidsOk l) : l.length ≤ s.links.bound := by
  have hsub : l.toFinset ⊆ Finset.range s.links.bound := by
    intro f hf
    obtain ⟨x, hx, -⟩ := h.live f (mem_toFinset.mp hf)
    exact Finset.mem_range.mpr (s.links.lt_bound hx)
  have hcard := Finset.card_le_card hsub
  rwa [toFinset_card_of_nodup h.visits.nodup, Finset.card_range] at hcard

theorem vfsGetByFidFrom_eq {n fuel : ℕ} {i : Option ℕ} {q : List ℕ} (h : s.FidsOk l) (hsub : q ⊆ l)
    (hvisits : Visits s.next i q) (hfuel : q.length ≤ fuel) (hf : f ∈ q) (hfid : s.fid f = some n) :
    vfsGetByFidFrom s n fuel i = .ok (some f) := by
  induction q generalizing i fuel with
  | nil => cases hf
  | cons g q ih =>
    obtain ⟨rfl, hvisits⟩ := hvisits
    have hg : g ∈ l := hsub mem_cons_self
    obtain ⟨fuel, rfl⟩ := Nat.exists_eq_succ_of_ne_zero (show fuel ≠ 0 by grind)
    obtain ⟨c, -, hc⟩ := h.below hg
    obtain ⟨x, hx, hxc⟩ := map_eq_some_iff.mp hc
    obtain ⟨y, hy, -⟩ := h.live g hg
    rw [vfsGetByFidFrom, Fal.vfs_eq_ok.mpr hx, ok_bind]
    by_cases hgf : g = f
    · subst hgf
      have hxn : x.fid = n := hxc.trans (some.inj (hc.symm.trans hfid))
      rw [if_pos hxn]
      rfl
    · have hxn : x.fid ≠ n := by
        intro hxn
        refine hgf (h.distinct g hg f (hsub hf) ?_)
        rw [hc, hfid, ← hxc, hxn]
      rw [if_neg hxn, Mounts.vfs_eq_ok.mpr hy, ok_bind]
      have hnext : s.next g = y.next := by rw [Mounts.next, hy, bind_some]
      rw [hnext] at hvisits
      refine ih (fun b hb => hsub (mem_cons_of_mem _ hb)) hvisits (by grind) ?_
      exact (mem_cons.mp hf).resolve_left (Ne.symm hgf)

variable {mounted : List ℕ}

theorem Mounts.Tidy.inOrder (h : s.Tidy l) (hsub : mounted ⊆ l) : s.InOrder mounted := by
  refine ⟨l, h.fids.visits, h.last, fun f hf => ⟨hsub hf, ?_⟩, h.covered⟩
  obtain ⟨n, -, hn⟩ := h.fids.below (hsub hf)
  exact ⟨n, hn, vfsGetByFidFrom_eq h.fids (List.Subset.refl l) h.fids.visits h.fids.length_le
    (hsub hf) hn⟩

theorem vfsNew_tidy {find : List Char → List Char → Found} {root : Entry} {system : Bool}
    (hnew : vfsNew k m s find root system = (f, t)) (h : s.Tidy l) :
    t.Tidy l ∧ f ∉ l ∧ t.New f := by
  obtain ⟨hfids, hnot, hfresh⟩ := vfsNew_fidsOk hnew h.fids
  cases hnew
  have heffect : LookupEffect s.fal (vnodeNew k s.fal (m.alloc s.links) root).2 :=
    .create _ _ (k.fresh s.fal.mem) rfl rfl rfl rfl
  have hquiet := heffect.quiet h.quiet
  refine ⟨⟨hfids, h.last, ⟨hquiet.nonneg, fun g x hg => ?_, hquiet.pointed, hquiet.mounted⟩, ?_⟩,
    hnot, hfresh⟩
  · dsimp only at hg
    by_cases hgf : g = m.alloc s.links
    · rw [hgf, update_self] at hg
      cases hg
      exact ⟨_, update_self ..⟩
    · rw [update_of_ne hgf] at hg
      exact hquiet.roots g x hg
  · intro a i
    have hmounted : (vnodeNew k s.fal (m.alloc s.links) root).2.mountedHere a = some i ↔ _ :=
      heffect.mountedHere ▸ h.covered a i
    refine hmounted.trans (and_congr_right fun hi => ?_)
    have hne : i ≠ m.alloc s.links := fun heq => hnot (heq ▸ hi)
    simp [Mounts.vnodeCovered, hne]

theorem MountEffect.tidy {a : ℕ} {fal : Fal} (heffect : MountEffect s t f a fal) (h : s.Tidy l)
    (hf : f ∉ l) (hnew : s.New f) {mnt : List Char}
    (hopen : vnodeOpen k s.fal mnt O_DIRECTORY 0 = .ok (some a, fal))
    (hfree : s.fal.mountedHere a = none) : t.Tidy (l ++ [f]) := by
  obtain ⟨hsound, hmounted, hpointed, hopened⟩ := h.quiet.vnodeOpen hopen
  obtain ⟨v, hv, hfal⟩ := heffect.vnode
  obtain ⟨p, rfl⟩ := getLast?_eq_some_iff.mp h.last
  refine ⟨?_, by simp [heffect.lastVFS], ?_, fun b i => ?_⟩
  · simpa using heffect.cut h.fids hf hnew
  · rw [hfal]
    refine Fal.Quiet.mountAt f hsound hpointed (fun x hx => ?_) hv fun g => ?_
    · exact (hopened x hx).imp_right fun heq => (some.inj heq).symm
    · rw [heffect.rootVnode, (vnodeOpen_filesUsed hopen).vfss]
  · have hhere : t.fal.mountedHere b = if b = a then some f else s.fal.mountedHere b := by
      rw [← hmounted, hfal]
      exact setVnode_mountedHere
    rw [hhere, heffect.vnodeCovered, mem_append, mem_singleton]
    by_cases hif : i = f
    · subst hif
      by_cases hba : b = a
      · simp [hba]
      · have hnot : s.fal.mountedHere b ≠ some i := fun heq => hf ((h.covered b i).mp heq).1
        simp [hba, hnot, Ne.symm hba]
    · rw [if_neg hif, or_iff_left hif, ← h.covered]
      by_cases hba : b = a
      · simp [hba, hfree, Ne.symm hif]
      · simp [hba]

theorem vfsUnmount_out (h : s.FidsOk l) (hf : f ∉ l) {r : ℤ}
    (hunmount : vfsUnmount s f = .ok (r, t)) :
    r = 1 ∧ t = s := by
  have hvisits : Visits s.next (some s.fal.rootVFS) ([] ++ l) := h.visits
  obtain hsame | ⟨p, prev, q, rfl, -⟩ := vfsUnmountFrom_cases hvisits h.visits.head hunmount
  · exact hsame
  · simp at hf

theorem LinkingCall.tidy (hcall : LinkingCall k m s e t) (h : s.Tidy l) (hsub : mounted ⊆ l) :
    ∃ l', t.Tidy l' ∧ standingStep mounted e ⊆ l' := by
  cases hcall with
  | @mount u _ f r find root mnt hvfs hdir hmount =>
    obtain ⟨a, fal, hopen, hfree⟩ := hdir
    obtain ⟨hu, hf, hnew⟩ := vfsNew_tidy hvfs h
    have hat : vfsMountAt k u f mnt = .ok (r, t) := by
      simp only [vfsMount, bind_eq_ok, Mounts.vfs_eq_ok] at hmount
      obtain ⟨x, hx, hmount⟩ := hmount
      cases (vfsNew_get hvfs).symm.trans hx
      exact hmount
    obtain ⟨-, rfl, rfl⟩ | ⟨fal', hnone, -⟩ | ⟨b, fal', -, hopen', rfl, heffect⟩ :=
      vfsMountAt_effect hat hnew
    · exact ⟨l, hu, hsub⟩
    · cases hopen.symm.trans hnone
    · cases hopen'.symm.trans hopen
      refine ⟨l ++ [f], heffect.tidy hu hf hnew hopen hfree, ?_⟩
      exact append_subset.mpr ⟨fun g hg => mem_append_left _ (hsub hg), by simp⟩
  | unmount f hout hunmount =>
    have hf : f ∉ l := fun hf => hout (h.fids.visits.reachable hf)
    obtain ⟨rfl, rfl⟩ := vfsUnmount_out h.fids hf hunmount
    exact ⟨l, h, hsub⟩

theorem RootMounted.tidy (h : RootMounted k m s) : s.Tidy [s.fal.rootVFS] := by
  obtain ⟨find, e, hlinks, hvfss, hmem, hhead, htail, hlast, -⟩ := h.cases
  set v : Vnode := ⟨e.filename, 0, 0, e.type, e.size, 0, none, s.fal.rootVFS, e.ops, none, none⟩
  have hget : ∀ b, s.fal.mem.get b = if b = k.alloc Objects.empty then some v else none := by
    intro b
    rw [hmem]
    exact update_apply ..
  have hvnode : ∀ b w, s.fal.mem.get b = some w → w = v := by
    intro b w hw
    rw [hget] at hw
    split at hw
    · exact (some.inj hw).symm
    · cases hw
  have hclosed : ∀ a, ¬s.fal.Open a := by
    rintro a ⟨w, hw, hpos⟩
    rw [hvnode a w hw] at hpos
    exact absurd hpos (lt_irrefl _)
  have hhere : ∀ a, s.fal.mountedHere a = none := by
    intro a
    rw [Fal.mountedHere, bind_eq_none_iff]
    intro w hw
    rw [hvnode a w hw]
  refine ⟨h.fidsOk, congrArg some hlast.symm, ⟨?_, ?_, ?_, ?_⟩, fun a i => ?_⟩
  · intro a w hw
    rw [hvnode a w hw]
  · intro f x hf
    rw [hvfss, update_apply] at hf
    split at hf
    · cases hf
      exact ⟨v, by rw [hget, if_pos rfl]⟩
    · cases hf
  · rintro a (ha | ha | ⟨b, hb⟩)
    · simp [hhead] at ha
    · simp [htail] at ha
    · simp only [Fal.next, Fal.prev, hget] at hb
      by_cases hba : b = k.alloc Objects.empty
      · simp [hba, v] at hb
      · simp [hba] at hb
  · exact fun a ha => absurd ha (hclosed a)
  · simp only [hhere, mem_singleton, reduceCtorEq, false_iff, not_and]
    rintro rfl
    simp [Mounts.vnodeCovered, hlinks]

/-- After the root mount, when no mount is of the system partition or at a mount point and nothing
mounted is unmounted, the list has every mounted file system, `lastVFS` is its last, and vnodes and
file systems point to each other. -/
theorem mount_links_in_order {s₀ : Mounts} (hstart : RootMounted k m s₀)
    (hrun : Runs.Trace (LinkingCall k m) s₀ es s) :
    s.InOrder (standing s₀.fal.rootVFS es) := by
  obtain ⟨l, h, hsub⟩ : ∃ l, s.Tidy l ∧ standing s₀.fal.rootVFS es ⊆ l := by
    refine hrun.history (fun es s => ∃ l, s.Tidy l ∧ standing s₀.fal.rootVFS es ⊆ l) ?_
      ⟨_, hstart.tidy, List.Subset.refl _⟩
    rintro es a e b ⟨l, h, hsub⟩ hcall
    rw [standing, foldl_append]
    exact hcall.tidy h hsub
  exact h.inOrder hsub

/-- A second file system is mounted at a directory of the first. -/
theorem mount_links_in_order_two : ∃ s₀ s : Mounts, RootMounted .bump .bump s₀ ∧
    s.InOrder [0, 1, 2] ∧ s.fal.mountedHere 2 = some 1 ∧ s.lastVFS = 2 := by
  obtain ⟨s₀, s, hstart, hroot, hrun, hhere, hlast⟩ : ∃ s₀ s : Mounts, RootMounted .bump .bump s₀ ∧
      s₀.fal.rootVFS = 0 ∧ Runs.Trace (LinkingCall .bump .bump) s₀ [.mount 1 0, .mount 2 0] s ∧
      s.fal.mountedHere 2 = some 1 ∧ s.lastVFS = 2 := by
    exact ⟨_, _, ⟨initrdFind [⟨['m', '/'], .dir, 0⟩], ⟨[], .dir, 0, initrdVnodeOps⟩, rfl⟩, rfl,
      ⟨_, .mount (initrdFind [⟨['n', '/'], .dir, 0⟩]) ⟨[], .dir, 0, initrdVnodeOps⟩ ['/', 'm', '/']
        rfl ⟨_, _, rfl, rfl⟩ rfl, _, .mount (initrdFind []) ⟨[], .dir, 0, initrdVnodeOps⟩
        ['/', 'm', '/', 'n', '/'] rfl ⟨_, _, rfl, rfl⟩ rfl, rfl⟩, rfl, rfl⟩
  refine ⟨s₀, s, hstart, ?_, hhere, hlast⟩
  have horder := mount_links_in_order hstart hrun
  rwa [hroot] at horder

/-- Unmounting the last file system leaves `lastVFS` at what was freed, and its mount point leads to
it. -/
theorem unmount_leaves_links : ∃ s₀ s : Mounts, RootMounted .bump .bump s₀ ∧
    Runs.Trace (VfsCall .bump .bump) s₀ [.mount 1 0, .unmount 1 0] s ∧
    ¬s.InOrder (standing s₀.fal.rootVFS [.mount 1 0, .unmount 1 0]) := by
  have hfind : ∃ s₀ s : Mounts, RootMounted .bump .bump s₀ ∧
      Runs.Trace (VfsCall .bump .bump) s₀ [.mount 1 0, .unmount 1 0] s ∧ s.lastVFS = 1 ∧
      s.fal.rootVFS = 0 ∧ s.next 0 = none := by
    refine ⟨_, _, ⟨initrdFind [⟨['m', '/'], .dir, 0⟩], ⟨[], .dir, 0, initrdVnodeOps⟩, rfl⟩,
      ⟨_, .mount (initrdFind []) ⟨[], .dir, 0, initrdVnodeOps⟩ false ['/', 'm', '/'] rfl
        ⟨_, _, rfl⟩ rfl, _, .unmount 1 (by decide) rfl, rfl⟩, rfl, rfl, rfl⟩
  obtain ⟨s₀, s, hstart, hrun, hlast, hroot, hnext⟩ := hfind
  refine ⟨s₀, s, hstart, hrun, ?_⟩
  rintro ⟨l, hvisits, hl, -⟩
  have hone : Visits s.next (some s.fal.rootVFS) [0] := by
    rw [hroot]
    exact ⟨rfl, hnext⟩
  rw [hvisits.unique hone, hlast] at hl
  cases hl

end Runs

end GarnOS
