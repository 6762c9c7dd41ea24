import GarnOS.Fal.VnodeSpec

/-! Which vnodes are freed: those in use are spared by lookups and closes that meet a condition, and
by no others. -/
namespace GarnOS
open Function Outcome Chain Relation Separated List

section Use
variable {k : Kmalloc} {s s' t : Fal} {a b : ℕ} {c : Cursor}

def Fal.Open (s : Fal) (a : ℕ) : Prop := ∃ v, s.mem.get a = some v ∧ 0 < v.refCount

def Fal.IsRoot (s : Fal) (a : ℕ) : Prop := ∃ f x, s.vfss f = some x ∧ x.rootVnode = a

/-- The vnode is in use when it is freed: it is open, a root, or something is mounted there. -/
def FreedVnode.InUse (f : FreedVnode) : Prop :=
  0 < f.vnode.refCount ∨ (∃ i x, f.vfss i = some x ∧ x.rootVnode = f.addr) ∨
    f.vnode.vfsMountedHere ≠ none

/-- What holds between calls on mounted file systems: counts are not negative, roots exist, and the
list leads to a root only if it is open. -/
structure Fal.Sound (s : Fal) : Prop where
  nonneg : ∀ a v, s.mem.get a = some v → 0 ≤ v.refCount
  roots : ∀ f x, s.vfss f = some x → ∃ v, s.mem.get x.rootVnode = some v
  listed : ∀ a, s.Pointed a → s.IsRoot a → s.Open a

/-- The effects of a lookup: an error code, a new vnode, and the end of one that is not in use. -/
inductive LookupEffect : Fal → Fal → Prop
  | errno {s : Fal} (e : ℤ) : LookupEffect s { s with kerrno := e }
  | create {s : Fal} (a : ℕ) (v : Vnode) (hfresh : s.mem.get a = none) (hcount : v.refCount = 0)
      (hmount : v.vfsMountedHere = none) (hnext : v.next = none) (hprev : v.prev = none) :
      LookupEffect s (s.setVnode a v)
  | recycle {s : Fal} (a : ℕ) (v : Vnode) (hv : s.mem.get a = some v)
      (hunused : ¬(⟨a, v, s.vfss⟩ : FreedVnode).InUse) :
      LookupEffect s (s.dropVnode a v)

open LookupEffect

theorem setVnode_open {v : Vnode} :
    (s.setVnode a v).Open b ↔ if b = a then 0 < v.refCount else s.Open b := by
  by_cases hb : b = a
  all_goals simp [Fal.Open, hb]

theorem dropVnode_open {v : Vnode} : (s.dropVnode a v).Open b ↔ b ≠ a ∧ s.Open b := by
  by_cases hb : b = a
  all_goals simp [Fal.Open, hb]

theorem Fal.Sound.set {w : Vnode} (hs : s.Sound) (hcount : 0 ≤ w.refCount)
    (hlisted : ∀ b, (s.setVnode a w).Pointed b → s.IsRoot b → (s.setVnode a w).Open b) :
    (s.setVnode a w).Sound := by
  refine ⟨fun b u hb => ?_, fun f x hf => ?_, hlisted⟩
  · by_cases hba : b = a
    · rw [setVnode_get, hba, update_self] at hb
      cases hb
      exact hcount
    · rw [setVnode_get, update_of_ne hba] at hb
      exact hs.nonneg b u hb
  · obtain ⟨u, hu⟩ := hs.roots f x hf
    by_cases hba : x.rootVnode = a
    · exact ⟨w, by rw [setVnode_get, hba, update_self]⟩
    · exact ⟨u, by rw [setVnode_get, update_of_ne hba, hu]⟩

section
variable (h : LookupEffect s t)
include h

theorem LookupEffect.open_iff : t.Open b ↔ s.Open b := by
  cases h with
  | errno e => exact Iff.rfl
  | create a v hfresh hcount =>
    rw [setVnode_open]
    by_cases hb : b = a
    · simp [hb, hcount, Fal.Open, hfresh]
    · rw [if_neg hb]
  | recycle a v hv hunused =>
    rw [dropVnode_open, and_iff_right_iff_imp]
    rintro ⟨w, hw, hpos⟩ rfl
    cases hv.symm.trans hw
    exact hunused (.inl hpos)

theorem LookupEffect.pointed (hb : t.Pointed b) : s.Pointed b := by
  cases h with
  | errno e => exact hb
  | create a v hfresh hcount hmount hnext hprev =>
    obtain hb | hb | hb := hb.setVnode
    · exact hb
    · rw [hnext] at hb
      cases hb
    · rw [hprev] at hb
      cases hb
  | recycle a v hv hunused =>
    obtain hb | hb | ⟨d, hd⟩ := hb
    · exact .inl hb
    · exact .inr (.inl hb)
    · rw [dropVnode_next, dropVnode_prev] at hd
      refine .inr (.inr ⟨d, ?_⟩)
      by_cases hda : d = a
      · simp [hda] at hd
      · simpa [hda] using hd

theorem LookupEffect.vfss : t.vfss = s.vfss := by
  cases h <;> rfl

theorem LookupEffect.sound (hs : s.Sound) : t.Sound := by
  have hlisted : ∀ b, t.Pointed b → t.IsRoot b → t.Open b := by
    intro b hb hroot
    rw [Fal.IsRoot, h.vfss] at hroot
    exact h.open_iff.mpr (hs.listed b (h.pointed hb) hroot)
  cases h with
  | errno e => exact ⟨hs.nonneg, hs.roots, hs.listed⟩
  | create a v hfresh hcount => exact hs.set hcount.ge hlisted
  | recycle a v hv hunused =>
    refine ⟨fun b u hb => hs.nonneg b u (get_of_dropVnode hb), fun f x hf => ?_, hlisted⟩
    have hne : x.rootVnode ≠ a := fun heq => hunused (.inr (.inl ⟨f, x, hf, heq⟩))
    obtain ⟨u, hu⟩ := hs.roots f x hf
    exact ⟨u, by rw [dropVnode_get, update_of_ne hne, hu]⟩

end

/-- A round of a lookup does not recycle a vnode that is open. -/
def RecyclesClosed (s : Fal) (c : Cursor) : Prop :=
  ∀ v vfs, s.mem.get c.vnode = some v → s.vfss c.vfs = some vfs → c.vnode ≠ vfs.rootVnode →
    v.ops.lookup → v.ops.inactive → v.refCount ≤ 0

/-- The loop is at the root of its file system, or at a vnode where nothing is mounted. -/
def CursorOk (s : Fal) (c : Cursor) : Prop :=
  (∃ x, s.vfss c.vfs = some x ∧ x.rootVnode = c.vnode) ∨
    ∃ v, s.mem.get c.vnode = some v ∧ v.vfsMountedHere = none ∧ (s.IsRoot c.vnode → 0 < v.refCount)

theorem LookupEffect.vfss_run (h : ReflTransGen LookupEffect s t) : t.vfss = s.vfss := by
  induction h with
  | refl => rfl
  | tail _ hstep ih => exact hstep.vfss.trans ih

theorem LookupEffect.sound_run (h : ReflTransGen LookupEffect s t) (hs : s.Sound) : t.Sound :=
  Runs.invariant (fun _ _ hs h => h.sound hs) hs h

/-- What a driver's lookup gives: it keeps the other vnodes, and it leads to a root only if that is
open. -/
theorem fsLookup_effect {name : List Char} {r : Option ℕ} (hs : s.Sound)
    (h : fsLookup k s a name = .ok (r, t)) :
    ReflTransGen LookupEffect s t ∧ (∀ b v, s.mem.get b = some v → t.mem.get b = some v) ∧
      ∀ b, r = some b → s.IsRoot b → s.Open b := by
  obtain ⟨dir, -, ⟨rfl, e, rfl⟩ | ⟨b, rfl, rfl, hsearch⟩ | ⟨e, rfl, rfl, -⟩⟩ := fsLookup_cases h
  · exact ⟨.single (.errno e), fun _ _ h => h, nofun⟩
  · refine ⟨.refl, fun _ _ h => h, ?_⟩
    rintro _ ⟨⟩ hroot
    obtain ⟨-, hhead | ⟨d, hd⟩⟩ := vnodeListSearchFrom_some hsearch
    · exact hs.listed b (.inl hhead) hroot
    · exact hs.listed b (.inr (.inr ⟨d, .inl hd⟩)) hroot
  · have hfresh := k.fresh s.mem
    refine ⟨.single (.create _ _ hfresh rfl rfl rfl rfl), fun b v hb => k.get_set_alloc hb, ?_⟩
    rintro _ ⟨⟩ ⟨f, x, hf, hx⟩
    obtain ⟨v, hv⟩ := hs.roots f x hf
    exact absurd hx (k.ne_alloc hv)

theorem lookupStep_effect {o : Option Cursor} (hs : s.Sound) (hc : CursorOk s c)
    (hclosed : RecyclesClosed s c) (h : lookupStep k s c = .ok (o, t)) :
    ReflTransGen LookupEffect s t ∧ ∀ c', o = some c' → CursorOk t c' := by
  obtain ⟨dir, hdir, ⟨rfl, rfl, -⟩ | ⟨r, u, hlookup, hfs, hrecycle, hend⟩⟩ := lookupStep_cases h
  · exact ⟨.single (.errno _), nofun⟩
  obtain ⟨heffect, hkeep, hopen⟩ := fsLookup_effect hs hfs
  obtain ⟨vfs, hvfs, hfree⟩ := lookupRecycle_cases hrecycle
  have hdir' := hkeep _ _ hdir
  rw [vfss_run heffect] at hvfs
  have hrun : ReflTransGen LookupEffect s t ∧
      ∀ b v w, s.mem.get b = some v → t.mem.get b = some w → w = v := by
    obtain rfl | ⟨hroot, hinactive, hfree⟩ := hfree
    · refine ⟨heffect, fun b v w hv hw => ?_⟩
      cases hw.symm.trans (hkeep b v hv)
      rfl
    · obtain ⟨v, hv, rfl⟩ := vnodeFree_eq hfree
      rw [hdir'] at hv
      cases hv
      have hcount := hclosed dir vfs hdir hvfs hroot hlookup hinactive
      have hunused : ¬(⟨c.vnode, dir, u.vfss⟩ : FreedVnode).InUse := by
        obtain ⟨x, hx, heq⟩ | ⟨v, hv, hmount, hisroot⟩ := hc
        · rw [hvfs] at hx
          cases hx
          exact absurd heq.symm hroot
        · rw [hdir] at hv
          cases hv
          rintro (hpos | hr | hm)
          · exact absurd hpos (not_lt.mpr hcount)
          · rw [vfss_run heffect] at hr
            exact absurd (hisroot hr) (not_lt.mpr hcount)
          · exact hm hmount
      refine ⟨heffect.tail (.recycle _ _ hdir' hunused), fun b v w hv hw => ?_⟩
      cases (get_of_dropVnode hw).symm.trans (hkeep b v hv)
      rfl
  refine ⟨hrun.1, ?_⟩
  obtain ⟨rfl, rfl⟩ | ⟨b, c', rfl, henter, rfl⟩ := hend
  · nofun
  rintro _ ⟨⟩
  obtain ⟨v, hv, ⟨hmount, rfl⟩ | ⟨f, mounted, hmount, hmounted, rfl⟩⟩ := lookupEnter_cases henter
  · refine .inr ⟨v, hv, hmount, fun hroot => ?_⟩
    obtain ⟨f, x, hf, hx⟩ := hroot
    rw [vfss_run hrun.1] at hf
    obtain ⟨w, hw, hpos⟩ := hopen b rfl ⟨f, x, hf, hx⟩
    rw [hrun.2 b w v hw hv]
    exact hpos
  · exact .inl ⟨mounted, hmounted, rfl⟩

/-- No round of the lookup of a path recycles a vnode that is open. -/
def WalkOk (k : Kmalloc) (s : Fal) (path : List Char) : Prop :=
  ∀ rest root, path = '/' :: rest → s.vfss s.rootVFS = some root →
    ∀ x, ReflTransGen (LookupRound k) ({ s with kerrno := 0 },
      ⟨s.rootVFS, root.rootVnode, rest⟩) x →
      x.2.rest ≠ [] → RecyclesClosed x.1 x.2

/-- The names of the directories that the lookup of a path goes through. -/
def dirNames (path : List Char) : List (List Char) := (splitAfter '/' path.tail).dropLast

/-- Before the lookup: no open vnode has a name that ends in that of a directory on the path. -/
def Fal.ClosedPath (s : Fal) (path : List Char) : Prop :=
  ∀ a v, s.mem.get a = some v → 0 < v.refCount → ∀ name ∈ dirNames path, ¬name <:+ v.filename

/-- Every open vnode was there before. -/
def OpensKept (s t : Fal) : Prop :=
  t.vfss = s.vfss ∧ ∀ a v, t.mem.get a = some v → 0 < v.refCount → s.mem.get a = some v

theorem OpensKept.trans {u : Fal} (h : OpensKept s t) (h' : OpensKept t u) : OpensKept s u :=
  ⟨h'.1.trans h.1, fun a v hv hpos => h.2 a v (h'.2 a v hv hpos) hpos⟩

theorem OpensKept.vnodeNew (s : Fal) (f : ℕ) (e : Entry) : OpensKept s (vnodeNew k s f e).2 := by
  refine ⟨rfl, fun a v hv hpos => ?_⟩
  simp only [GarnOS.vnodeNew, setVnode_get, update_apply] at hv
  split at hv
  · cases hv
    cases hpos
  · exact hv

theorem OpensKept.dropVnode (s : Fal) (a : ℕ) (v : Vnode) : OpensKept s (s.dropVnode a v) :=
  ⟨rfl, fun _ _ hw _ => get_of_dropVnode hw⟩

theorem LookupRound.opensKept {x y : Fal × Cursor} (h : ReflTransGen (LookupRound k) x y) :
    OpensKept x.1 y.1 :=
  LookupRound.rel_run (R := OpensKept) (fun _ _ _ => .trans) (fun _ _ => ⟨rfl, fun _ _ hv _ => hv⟩)
    (fun s f e _ => .vnodeNew s f e) .dropVnode h

def Cursor.AtRoot (s : Fal) (c : Cursor) : Prop := ∃ x, s.vfss c.vfs = some x ∧ x.rootVnode = c.vnode

theorem lookupStep_next {c' : Cursor} (h : LookupRound k (s, c) (t, c')) :
    c'.rest = (nextName c.rest).2 ∧ (c'.AtRoot t ∨
      ∀ v, t.mem.get c'.vnode = some v → 0 < v.refCount → (nextName c.rest).1 <:+ v.filename) := by
  have hkept := LookupRound.opensKept (.single h)
  obtain ⟨dir, -, ⟨ho, -⟩ | ⟨r, u, -, hfs, -, ⟨-, ho⟩ | ⟨a, c'', rfl, henter, ho⟩⟩⟩ :=
    lookupStep_cases h.2
  · cases ho
  · cases ho
  cases ho
  obtain ⟨v, -, ⟨-, rfl⟩ | ⟨f, mounted, -, hmounted, rfl⟩⟩ := lookupEnter_cases henter
  · refine ⟨rfl, .inr fun w hw hpos => ?_⟩
    have hold := hkept.2 a w hw hpos
    obtain ⟨dir', -, ⟨hr, -⟩ | ⟨b, hr, -, hsearch⟩ | ⟨e, hr, -⟩⟩ := fsLookup_cases hfs
    · cases hr
    · cases hr
      obtain ⟨⟨w', own, given, hw', -, -, -, hname⟩, -⟩ := vnodeListSearchFrom_some hsearch
      cases hold.symm.trans hw'
      exact ⟨_, hname.symm⟩
    · cases hr
      exact absurd rfl (k.ne_alloc hold)
  · exact ⟨rfl, .inl ⟨mounted, hmounted, rfl⟩⟩

/-- The rounds take the names of the path off one by one; an open vnode that they are at ends in the
last of them. -/
theorem LookupRound.cursor {x y : Fal × Cursor} (hrun : ReflTransGen (LookupRound k) x y)
    (hroot : x.2.AtRoot x.1) : ∃ done, splitAfter '/' x.2.rest = done ++ splitAfter '/' y.2.rest ∧
      (y.2.AtRoot y.1 ∨ ∃ name ∈ done.getLast?, ∀ v, y.1.mem.get y.2.vnode = some v →
        0 < v.refCount → name <:+ v.filename) := by
  induction hrun with
  | refl => exact ⟨[], rfl, .inl hroot⟩
  | @tail y z _ hstep ih =>
    obtain ⟨done, hdone, -⟩ := ih
    obtain ⟨hrest, hnext⟩ := lookupStep_next hstep
    obtain ⟨ch, cs, hcs⟩ := exists_cons_of_ne_nil hstep.1
    refine ⟨done ++ [(nextName y.2.rest).1], ?_, hnext.imp_right fun hname => ⟨_, by simp, hname⟩⟩
    rw [hdone, hrest, hcs, splitAfter_eq_nextName, append_assoc, singleton_append]

theorem Fal.ClosedPath.walkOk {path : List Char} (h : s.ClosedPath path) : WalkOk k s path := by
  intro rest root hpath hroot x hrun hrest v vfs hv hvfs hne _ _
  by_contra hpos
  rw [not_le] at hpos
  have hkept := LookupRound.opensKept hrun
  obtain ⟨done, hdone, ⟨y, hy, heq⟩ | ⟨name, hname, hends⟩⟩ :=
    LookupRound.cursor hrun ⟨root, hroot, rfl⟩
  · rw [hvfs] at hy
    cases hy
    exact hne heq.symm
  · have hmem : name ∈ dirNames path := by
      obtain ⟨ch, cs, hcs⟩ := exists_cons_of_ne_nil hrest
      have hlast : splitAfter '/' x.2.rest ≠ [] := by
        rw [hcs, splitAfter_eq_nextName]
        exact cons_ne_nil _ _
      rw [dirNames, hpath, tail_cons, hdone, dropLast_append_of_ne_nil hlast]
      exact mem_append_left _ (mem_of_getLast? hname)
    exact h _ v (hkept.2 _ v hv hpos) hpos name hmem (hends v hv hpos)

theorem vnodeLookup_effect {path : List Char} {r : Option ℕ} (hs : s.Sound)
    (hwalk : WalkOk k s path)
    (h : vnodeLookup k s path = .ok (r, t)) : ReflTransGen LookupEffect s t := by
  have hstart : LookupEffect s { s with kerrno := 0 } := .errno 0
  unfold vnodeLookup at h
  split at h
  next rest =>
    simp only [bind_eq_ok, Fal.vfs_eq_ok] at h
    obtain ⟨root, hroot, h⟩ := h
    have hrounds := hwalk rest root rfl hroot
    obtain ⟨x, hrun, hend⟩ := vnodeLookupFrom_rounds h
    have hinv : ReflTransGen LookupEffect s x.1 ∧ CursorOk x.1 x.2 := by
      clear hend
      induction hrun with
      | refl => exact ⟨.single hstart, .inl ⟨root, hroot, rfl⟩⟩
      | @tail y z hrun hstep ih =>
        have hsound := sound_run ih.1 hs
        obtain ⟨heffect, hnext⟩ := lookupStep_effect hsound ih.2 (hrounds y hrun hstep.1) hstep.2
        exact ⟨ih.1.trans heffect, hnext _ rfl⟩
    obtain ⟨-, -, rfl⟩ | ⟨hrest, -, hlast⟩ := hend
    · exact hinv.1
    · have hsound := sound_run hinv.1 hs
      obtain ⟨heffect, -⟩ := lookupStep_effect hsound hinv.2 (hrounds x hrun hrest) hlast
      exact hinv.1.trans heffect
  next =>
    cases h
    exact .single (.errno EINVAL)

theorem LinksOnly.isRoot (h : LinksOnly s t) : t.IsRoot a ↔ s.IsRoot a := by
  unfold Fal.IsRoot
  rw [h.vfss]

theorem Fal.Sound.links (hs : s.Sound) (h : LinksOnly s t)
    (hpointed : ∀ x, t.Pointed x → s.Pointed x ∨ s.Open x) : t.Sound := by
  have hopen : ∀ x, s.Open x → t.Open x := by
    rintro x ⟨v, hv, hpos⟩
    obtain ⟨w, hw, heq⟩ := h.get hv
    exact ⟨w, hw, by rwa [Vnode.refCount_of_unlinked heq]⟩
  refine ⟨fun b w hw => ?_, fun f x hf => ?_, fun b hb hroot => hopen b ?_⟩
  · obtain ⟨v, hv, heq⟩ := h.get_back hw
    rw [Vnode.refCount_of_unlinked heq]
    exact hs.nonneg b v hv
  · rw [h.vfss] at hf
    obtain ⟨v, hv⟩ := hs.roots f x hf
    obtain ⟨w, hw, -⟩ := h.get hv
    exact ⟨w, hw⟩
  · exact (hpointed b hb).elim (fun hp => hs.listed b hp (h.isRoot.mp hroot)) id

theorem Fal.Sound.setVnode {v w : Vnode} (hs : s.Sound) (hv : s.mem.get a = some v)
    (hnext : w.next = v.next) (hprev : w.prev = v.prev) (hcount : 0 ≤ w.refCount)
    (hroot : s.Pointed a → s.IsRoot a → 0 < w.refCount) : (s.setVnode a w).Sound := by
  have hpointed : ∀ x, (s.setVnode a w).Pointed x → s.Pointed x := fun x hx =>
    hx.of_setVnode hv hnext hprev
  refine hs.set hcount fun b hb hr => setVnode_open.mpr ?_
  split_ifs with hba
  · subst hba
    exact hroot (hpointed b hb) hr
  · exact hs.listed b (hpointed b hb) hr

theorem vnodeOpenAt_sound {path : List Char} {flags mode : BitVec 32} {r : Option ℕ} (hs : s.Sound)
    (h : vnodeOpenAt s a path flags mode = .ok (r, t)) : t.Sound ∧ t.frees = s.frees := by
  obtain ⟨v, hv, ⟨-, e, rfl⟩ | ⟨found, -, -, hcase⟩⟩ := vnodeOpenAt_cases h
  · exact ⟨⟨hs.nonneg, hs.roots, hs.listed⟩, rfl⟩
  have hpos : 0 < v.referenced.refCount := by
    have hnonneg := hs.nonneg a v hv
    simp only [Vnode.referenced]
    omega
  have hcount : (s.setVnode a v.referenced).Sound :=
    hs.setVnode hv rfl rfl hpos.le fun _ _ => hpos
  obtain ⟨-, rfl⟩ | ⟨-, u, w, hadd, hw, rfl⟩ := hcase
  · exact ⟨hcount, rfl⟩
  obtain ⟨hlinks, hpointed⟩ := vnodeListAdd_links hadd
  have hopen : (s.setVnode a v.referenced).Open a :=
    ⟨_, by rw [setVnode_get, update_self], hpos⟩
  have hu : u.Sound := by
    refine hcount.links hlinks fun x hx => (hpointed x hx).imp_right ?_
    rintro rfl
    exact hopen
  have hwcount : 0 < w.refCount := by
    obtain ⟨v', hv', heq⟩ := hlinks.get_back hw
    rw [setVnode_get, update_self] at hv'
    cases hv'
    rwa [Vnode.refCount_of_unlinked heq]
  exact ⟨hu.setVnode hw rfl rfl hwcount.le fun _ _ => hwcount, hlinks.frees⟩

theorem LookupEffect.frees (h : LookupEffect s t) : ∀ f ∈ t.frees, f ∈ s.frees ∨ ¬f.InUse := by
  cases h with
  | errno e | create a v => exact fun f hf => .inl hf
  | recycle a v hv hunused =>
    intro f hf
    obtain rfl | hf := mem_cons.mp hf
    · exact .inr hunused
    · exact .inl hf

theorem LookupEffect.frees_run (h : ReflTransGen LookupEffect s t) :
    ∀ f ∈ t.frees, f ∈ s.frees ∨ ¬f.InUse := by
  induction h with
  | refl => exact fun f hf => .inl hf
  | tail _ hstep ih => exact fun f hf => (hstep.frees f hf).elim (ih f) .inr

/-- The state stays sound, and only vnodes out of use are freed. -/
def Spares (s t : Fal) : Prop := t.Sound ∧ ∀ f ∈ t.frees, f ∈ s.frees ∨ ¬f.InUse

theorem LookupEffect.spares (h : ReflTransGen LookupEffect s t) (hs : s.Sound) : Spares s t :=
  ⟨sound_run h hs, frees_run h⟩

theorem vnodeClose_sound (hs : s.Sound) (hopen : s.Open a)
    (hlast : ∀ v, s.mem.get a = some v → v.refCount = 1 → ¬s.IsRoot a ∧ v.vfsMountedHere = none)
    (h : vnodeClose s a = .ok t) : Spares s t := by
  obtain ⟨v, hv, ⟨hone, u, hremove, hfree⟩ | ⟨hne, rfl⟩⟩ := vnodeClose_cases h
  · obtain ⟨hroot, hmount⟩ := hlast v hv hone
    have hzero : v.dereferenced.refCount = 0 := by simp [Vnode.dereferenced, hone]
    have hcount : (s.setVnode a v.dereferenced).Sound :=
      hs.setVnode hv rfl rfl hzero.ge fun _ hr => absurd hr hroot
    have hcount' : ({ s.setVnode a v.dereferenced with kerrno := 0 } : Fal).Sound :=
      ⟨hcount.nonneg, hcount.roots, hcount.listed⟩
    obtain ⟨hlinks, hpointed⟩ := vnodeListRemove_links hremove
    have hu : u.Sound := hcount'.links hlinks fun x hx => .inl (hpointed x hx)
    obtain ⟨w, hw, rfl⟩ := vnodeFree_eq hfree
    obtain ⟨v', hv', heq⟩ := hlinks.get_back hw
    obtain rfl : v.dereferenced = v' := by simpa using hv'
    have hunused : ¬(⟨a, w, u.vfss⟩ : FreedVnode).InUse := by
      rintro (hpos | hr | hm)
      · have hcountw := Vnode.refCount_of_unlinked heq
        dsimp only at hpos
        omega
      · rw [hlinks.vfss] at hr
        exact hroot hr
      · have hmountw := congrArg Vnode.vfsMountedHere heq
        exact hm (hmountw.trans hmount)
    have heffect : LookupEffect u (u.dropVnode a w) := .recycle a w hw hunused
    refine ⟨heffect.sound hu, fun f hf => ?_⟩
    have hf' := heffect.frees f hf
    rwa [hlinks.frees] at hf'
  · obtain ⟨w, hw, hpos⟩ := hopen
    cases hw.symm.trans hv
    have hpos' : 0 < v.dereferenced.refCount := by
      simp only [Vnode.dereferenced]
      omega
    have hcount : (s.setVnode a v.dereferenced).Sound :=
      hs.setVnode hv rfl rfl hpos'.le fun _ _ => hpos'
    exact ⟨⟨hcount.nonneg, hcount.roots, hcount.listed⟩, fun f hf => .inl hf⟩

inductive FalStep (k : Kmalloc) : Fal → Fal → Prop
  | lookup {s t : Fal} {r : Option ℕ} (path : List Char) (h : vnodeLookup k s path = .ok (r, t)) :
      FalStep k s t
  | openVnode {s t : Fal} {r : Option ℕ} (path : List Char) (flags mode : BitVec 32)
      (h : vnodeOpen k s path flags mode = .ok (r, t)) : FalStep k s t
  | closeVnode {s t : Fal} (a : ℕ) (hopen : s.Open a) (h : vnodeClose s a = .ok t) : FalStep k s t

theorem FalStep.filesUsed (h : FalStep k s t) : FilesUsed s t := by
  cases h with
  | lookup path h => exact vnodeLookup_filesUsed h
  | openVnode path flags mode h => exact vnodeOpen_filesUsed h
  | closeVnode a _ h => exact vnodeClose_filesUsed h

/-- No lookup recycles an open vnode on its way, and no close gives up the last reference to a root
or to a vnode where something is mounted. -/
inductive SparingStep (k : Kmalloc) : Fal → Fal → Prop
  | lookup {s t : Fal} {r : Option ℕ} (path : List Char) (hwalk : WalkOk k s path)
      (h : vnodeLookup k s path = .ok (r, t)) : SparingStep k s t
  | openVnode {s t : Fal} {r : Option ℕ} (path : List Char) (flags mode : BitVec 32)
      (hwalk : WalkOk k s path) (h : vnodeOpen k s path flags mode = .ok (r, t)) : SparingStep k s t
  | closeVnode {s t : Fal} (a : ℕ) (hopen : s.Open a)
      (hlast : ∀ v, s.mem.get a = some v → v.refCount = 1 → ¬s.IsRoot a ∧ v.vfsMountedHere = none)
      (h : vnodeClose s a = .ok t) : SparingStep k s t

theorem vnodeOpen_sound {path : List Char} {flags mode : BitVec 32} {r : Option ℕ} (hs : s.Sound)
    (hwalk : WalkOk k s path) (h : vnodeOpen k s path flags mode = .ok (r, t)) : Spares s t := by
  obtain ⟨o, u, hlookup, hcase⟩ := vnodeOpen_cases h
  have hu := spares (vnodeLookup_effect hs hwalk hlookup) hs
  obtain ⟨-, -, rfl⟩ | ⟨a, -, hat⟩ := hcase
  · exact hu
  · obtain ⟨ht, hfrees⟩ := vnodeOpenAt_sound hu.1 hat
    exact ⟨ht, hfrees ▸ hu.2⟩

theorem SparingStep.sound (hstep : SparingStep k s t)
    (h : s.Sound ∧ ∀ f ∈ s.frees, ¬f.InUse) : t.Sound ∧ ∀ f ∈ t.frees, ¬f.InUse := by
  obtain ⟨hs, hfrees⟩ := h
  have hspares : Spares s t := by
    cases hstep with
    | lookup path hwalk h => exact spares (vnodeLookup_effect hs hwalk h) hs
    | openVnode path flags mode hwalk h => exact vnodeOpen_sound hs hwalk h
    | closeVnode a hopen hlast h => exact vnodeClose_sound hs hopen hlast h
  exact ⟨hspares.1, fun f hf => (hspares.2 f hf).elim (hfrees f) id⟩

/-- In every run on mounted file systems in which no lookup recycles an open vnode and no close
gives up the last reference to a root or a mount point, no vnode in use is freed. -/
theorem vnode_frees_unused {s₀ : Fal} (hs : s₀.Sound) (hnone : s₀.frees = [])
    (hrun : ReflTransGen (SparingStep k) s₀ s) : ∀ f ∈ s.frees, ¬f.InUse := by
  have hstart : s₀.Sound ∧ ∀ f ∈ s₀.frees, ¬f.InUse := ⟨hs, by simp [hnone]⟩
  have hend : s.Sound ∧ ∀ f ∈ s.frees, ¬f.InUse :=
    @Runs.invariant _ _ (fun s => s.Sound ∧ ∀ f ∈ s.frees, ¬f.InUse) _ _
      (fun _ _ h hstep => hstep.sound h) hstart hrun
  exact hend.2

theorem initrdInit_vnode {members : List TarMember} {v : Vnode}
    (h : (initrdInit members).mem.get a = some v) : v.refCount = 0 ∧ v.next = none ∧ v.prev = none := by
  by_cases ha : a = 0
  · subst ha
    cases h
    exact ⟨rfl, rfl, rfl⟩
  · simp [initrdInit, Objects.set, Objects.empty, ha] at h

theorem initrdInit_closed (members : List TarMember) (a : ℕ) : ¬(initrdInit members).Open a := by
  rintro ⟨v, hv, hpos⟩
  rw [(initrdInit_vnode hv).1] at hpos
  cases hpos

theorem initrdInit_root {members : List TarMember} {f : ℕ} {x : Vfs}
    (h : (initrdInit members).vfss f = some x) : x.rootVnode = 0 := by
  by_cases hf : f = 0
  · simp only [initrdInit, hf, if_true, Option.some.injEq] at h
    rw [← h]
  · simp [initrdInit, hf] at h

theorem initrdInit_sound (members : List TarMember) : (initrdInit members).Sound where
  nonneg := fun a v hv => (initrdInit_vnode hv).1.ge
  roots := fun f x hf => ⟨_, by rw [initrdInit_root hf]; rfl⟩
  listed := by
    rintro a (h | h | ⟨b, h⟩)
    · cases h
    · cases h
    · rw [Fal.next, Fal.prev] at h
      cases hv : (initrdInit members).mem.get b with
      | none => simp [hv] at h
      | some v => simp [hv, (initrdInit_vnode hv).2] at h

theorem not_isRoot_initrd {members : List TarMember} (hvfss : s.vfss = (initrdInit members).vfss)
    (ha : a ≠ 0) : ¬s.IsRoot a := by
  rintro ⟨f, x, hf, rfl⟩
  rw [hvfss] at hf
  exact ha (initrdInit_root hf)

/-- Open a file in a directory, close it: the vnodes of both are freed. -/
theorem vnode_frees_unused_file : ∃ s : Fal, ReflTransGen (SparingStep .bump)
    (initrdInit [⟨['d', '/'], .dir, 0⟩, ⟨['d', '/', 'x'], .reg, 3⟩]) s ∧ s.frees.length = 2 ∧
      ∀ f ∈ s.frees, ¬f.InUse := by
  obtain ⟨s, hrun, hlen⟩ : ∃ s : Fal, ReflTransGen (SparingStep .bump)
      (initrdInit [⟨['d', '/'], .dir, 0⟩, ⟨['d', '/', 'x'], .reg, 3⟩]) s ∧ s.frees.length = 2 := by
    have hclosed : Fal.ClosedPath _ ['/', 'd', '/', 'x'] := fun a v hv hpos =>
      (initrdInit_closed [⟨['d', '/'], .dir, 0⟩, ⟨['d', '/', 'x'], .reg, 3⟩] a ⟨v, hv, hpos⟩).elim
    refine ⟨_, (ReflTransGen.single (.openVnode _ 0 0 hclosed.walkOk rfl)).tail
      (.closeVnode 2 ⟨_, rfl, ?_⟩ ?_ rfl), rfl⟩
    · decide
    · rintro v ⟨⟩ -
      exact ⟨not_isRoot_initrd rfl (by decide), rfl⟩
  exact ⟨s, hrun, hlen, vnode_frees_unused (initrdInit_sound _) rfl hrun⟩

/-- A lookup through an open directory frees it, and closing the root directory frees the root. -/
theorem vnode_frees_in_use :
    (∃ s : Fal, ReflTransGen (FalStep .bump)
    (initrdInit [⟨['d', '/'], .dir, 0⟩, ⟨['d', '/', 'x'], .reg, 3⟩]) s ∧
      ∃ f ∈ s.frees, 0 < f.vnode.refCount) ∧
    ∃ s : Fal, ReflTransGen (FalStep .bump) (initrdInit []) s ∧
      ∃ f ∈ s.frees, ∃ i x, f.vfss i = some x ∧ x.rootVnode = f.addr := by
  constructor
  · refine ⟨_, (ReflTransGen.single (.openVnode ['/', 'd', '/'] O_DIRECTORY 0 rfl)).tail
      (.lookup ['/', 'd', '/', 'x'] rfl), _, mem_cons_self, by decide⟩
  · refine ⟨_, (ReflTransGen.single (.openVnode ['/'] O_DIRECTORY 0 rfl)).tail
      (.closeVnode 0 ⟨_, rfl, by decide⟩ rfl), _, mem_cons_self, 0, _, rfl, rfl⟩

end Use

end GarnOS
