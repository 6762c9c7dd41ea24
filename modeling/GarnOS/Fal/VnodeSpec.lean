import GarnOS.Fal.Vnode
import GarnOS.Library.Chain
import GarnOS.Library.Runs
import GarnOS.Library.Separated

/-! What each call on vnodes does to the vnodes in memory. -/
namespace GarnOS
open Function Outcome Chain Relation Separated Option Except Fal

section Memory
variable {s : Fal} {a b : ℕ} {v : Vnode}

theorem Fal.vnode_eq_ok : s.vnode a = .ok v ↔ s.mem.get a = some v := by
  unfold vnode
  split <;> simp_all

theorem Fal.vfs_eq_ok {f : ℕ} {x : Vfs} : s.vfs f = .ok x ↔ s.vfss f = some x := by
  unfold vfs
  split <;> simp_all

@[simp] theorem setVnode_get : (s.setVnode a v).mem.get = Function.update s.mem.get a (some v) := rfl

@[simp] theorem setVnode_head : (s.setVnode a v).vnodeListHead = s.vnodeListHead := rfl

@[simp] theorem setVnode_tail : (s.setVnode a v).vnodeListTail = s.vnodeListTail := rfl

@[simp] theorem setVnode_vfss : (s.setVnode a v).vfss = s.vfss := rfl

@[simp] theorem setVnode_frees : (s.setVnode a v).frees = s.frees := rfl

@[simp] theorem dropVnode_get : (s.dropVnode a v).mem.get = Function.update s.mem.get a none := rfl

@[simp] theorem dropVnode_head : (s.dropVnode a v).vnodeListHead = s.vnodeListHead := rfl

@[simp] theorem dropVnode_tail : (s.dropVnode a v).vnodeListTail = s.vnodeListTail := rfl

theorem get_of_dropVnode {w : Vnode} (h : (s.dropVnode a v).mem.get b = some w) :
    s.mem.get b = some w := by
  rw [dropVnode_get, update_apply] at h
  split at h
  · cases h
  · exact h

theorem dropVnode_next : (s.dropVnode a v).next b = if b = a then none else s.next b := by
  by_cases hb : b = a
  all_goals simp [next, hb]

theorem dropVnode_prev : (s.dropVnode a v).prev b = if b = a then none else s.prev b := by
  by_cases hb : b = a
  all_goals simp [prev, hb]

theorem setVnode_next : (s.setVnode a v).next b = if b = a then v.next else s.next b := by
  by_cases hb : b = a
  all_goals simp [next, hb]

theorem setVnode_prev : (s.setVnode a v).prev b = if b = a then v.prev else s.prev b := by
  by_cases hb : b = a
  all_goals simp [prev, hb]

end Memory

section Search
variable {s : Fal} {vfs : ℕ} {filename : List Char} {l : List ℕ} {r : Option ℕ}

/-- The vnode is one that `vnode_list_search_by_filename` looks for. -/
def Fal.Named (s : Fal) (vfs : ℕ) (filename : List Char) (a : ℕ) : Prop :=
  ∃ v own given, s.mem.get a = some v ∧ s.vfss v.vfs = some own ∧ s.vfss vfs = some given ∧
    own.fid = given.fid ∧ v.filename = filename

theorem vnodeListSearchFrom_some {fuel a : ℕ} {start : Option ℕ}
    (hsearch : vnodeListSearchFrom s vfs filename fuel start = .ok (some a)) :
    s.Named vfs filename a ∧ (start = some a ∨ ∃ b, s.next b = some a) := by
  induction fuel generalizing start with
  | zero =>
    cases start <;> cases hsearch
  | succ fuel ih =>
    cases start with
    | none => cases hsearch
    | some i =>
      simp only [vnodeListSearchFrom, bind_eq_ok, vnode_eq_ok, vfs_eq_ok] at hsearch
      obtain ⟨v, hv, own, hown, given, hgiven, hif⟩ := hsearch
      split at hif
      next hsame =>
        obtain rfl : i = a := some.inj (ok.inj hif)
        exact ⟨⟨v, own, given, hv, hown, hgiven, hsame.1, hsame.2⟩, .inl rfl⟩
      next =>
        obtain ⟨hnamed, hlink⟩ := ih hif
        refine ⟨hnamed, .inr ?_⟩
        obtain hlink | hlink := hlink
        · exact ⟨i, by simpa [next, hv] using hlink⟩
        · exact hlink

end Search

section Names
variable {c : Char} {cs : List Char}
open List

theorem nextName_slash (cs : List Char) : nextName ('/' :: cs) = (['/'], cs) := rfl

theorem nextName_of_ne (hc : c ≠ '/') :
    nextName (c :: cs) = (c :: (nextName cs).1, (nextName cs).2) := if_neg hc

theorem nextName_append (l : List Char) : (nextName l).1 ++ (nextName l).2 = l := by
  induction l with
  | nil => rfl
  | cons c cs ih =>
    by_cases hc : c = '/'
    · rw [hc, nextName_slash]
      rfl
    · rw [nextName_of_ne hc, cons_append, ih]

theorem drop_nextName (l : List Char) : l.drop (nextName l).1.length = (nextName l).2 := by
  have h : ((nextName l).1 ++ (nextName l).2).drop (nextName l).1.length = (nextName l).2 :=
    drop_left
  rwa [nextName_append] at h

theorem nextName_ne_nil (c : Char) (cs : List Char) : (nextName (c :: cs)).1 ≠ [] := by
  by_cases hc : c = '/'
  · rw [hc, nextName_slash]
    exact cons_ne_nil _ _
  · rw [nextName_of_ne hc]
    exact cons_ne_nil _ _

theorem splitAfter_eq_nextName (c : Char) (cs : List Char) : splitAfter '/' (c :: cs) =
    (nextName (c :: cs)).1 :: splitAfter '/' (nextName (c :: cs)).2 := by
  induction cs generalizing c with
  | nil =>
    by_cases hc : c = '/'
    · rw [hc, nextName_slash, splitAfter_sep]
    · rw [nextName_of_ne hc, splitAfter_of_nil hc rfl]
      rfl
  | cons c' cs ih =>
    by_cases hc : c = '/'
    · rw [hc, nextName_slash, splitAfter_sep]
    · rw [nextName_of_ne hc, splitAfter_of_cons hc (ih c')]

end Names

section Lookup
variable {k : Kmalloc} {s s' : Fal} {self : ℕ} {name : List Char} {r : Option ℕ} {c : Cursor}
  {o : Option Cursor}

/-- The driver of the file system finds this entry under some name. -/
def Fal.Holds (s : Fal) (f : ℕ) (e : Entry) : Prop :=
  ∃ x dir name, s.vfss f = some x ∧ x.find dir name = .found e

theorem fsLookup_cases (h : fsLookup k s self name = .ok (r, s')) :
    ∃ dir, s.mem.get self = some dir ∧
      ((r = none ∧ ∃ e, s' = { s with kerrno := e }) ∨
      (∃ a, r = some a ∧ s' = s ∧
        vnodeListSearchByFilename s dir.vfs (dir.filename ++ name) = .ok (some a)) ∨
      (∃ e, r = some (k.alloc s.mem) ∧ s' = (vnodeNew k s dir.vfs e).2 ∧ s.Holds dir.vfs e)) := by
  simp only [fsLookup, bind_eq_ok, vnode_eq_ok] at h
  obtain ⟨dir, hdir, h⟩ := h
  refine ⟨dir, hdir, ?_⟩
  split at h
  · cases h
    exact .inl ⟨rfl, _, rfl⟩
  split at h
  · cases h
  simp only [bind_eq_ok] at h
  obtain ⟨found, hfound, h⟩ := h
  cases found with
  | some a =>
    cases h
    exact .inr (.inl ⟨a, rfl, rfl, hfound⟩)
  | none =>
    simp only [bind_eq_ok, vfs_eq_ok] at h
    obtain ⟨fs, hfs, h⟩ := h
    split at h
    · cases h
      exact .inl ⟨rfl, _, rfl⟩
    · cases h
      exact .inl ⟨rfl, _, rfl⟩
    next e he =>
      cases h
      exact .inr (.inr ⟨e, rfl, rfl, fs, _, _, hfs, he⟩)

theorem lookupStep_cases (h : lookupStep k s c = .ok (o, s')) :
    ∃ dir, s.mem.get c.vnode = some dir ∧
      ((o = none ∧ s' = { s with kerrno := EINVAL } ∧ dir.ops.lookup = false) ∨
      ∃ r t, dir.ops.lookup = true ∧ fsLookup k s c.vnode (nextName c.rest).1 = .ok (r, t) ∧
        lookupRecycle t c dir.ops = .ok s' ∧
        ((r = none ∧ o = none) ∨
        ∃ a c', r = some a ∧ lookupEnter s' c a = .ok c' ∧ o = some c')) := by
  unfold lookupStep at h
  dsimp only at h
  split at h
  · cases h
  simp only [bind_eq_ok, vnode_eq_ok] at h
  obtain ⟨dir, hdir, h⟩ := h
  refine ⟨dir, hdir, ?_⟩
  split at h
  next hlookup =>
    cases h
    exact .inl ⟨rfl, rfl, hlookup⟩
  next hlookup =>
    simp only [bind_eq_ok] at h
    obtain ⟨⟨r, t⟩, hfs, u, hrecycle, h⟩ := h
    refine .inr ⟨r, t, by simpa using hlookup, hfs, ?_⟩
    cases r with
    | none =>
      cases h
      exact ⟨hrecycle, .inl ⟨rfl, rfl⟩⟩
    | some a =>
      simp only [bind_eq_ok] at h
      obtain ⟨c', hc', h⟩ := h
      cases h
      exact ⟨hrecycle, .inr ⟨a, c', rfl, hc', rfl⟩⟩

theorem lookupRecycle_cases {ops : VnodeOps} (h : lookupRecycle s c ops = .ok s') :
    ∃ vfs, s.vfss c.vfs = some vfs ∧
      (s' = s ∨ c.vnode ≠ vfs.rootVnode ∧ ops.inactive ∧ vnodeFree s c.vnode = .ok s') := by
  simp only [lookupRecycle, bind_eq_ok, vfs_eq_ok] at h
  obtain ⟨vfs, hvfs, h⟩ := h
  refine ⟨vfs, hvfs, ?_⟩
  split at h
  next hfree => exact .inr ⟨hfree.1, hfree.2, h⟩
  next => exact .inl (ok.inj h).symm

theorem lookupEnter_cases {a : ℕ} {c' : Cursor} (h : lookupEnter s c a = .ok c') :
    ∃ v, s.mem.get a = some v ∧
      ((v.vfsMountedHere = none ∧ c' = ⟨c.vfs, a, (nextName c.rest).2⟩) ∨
      ∃ f mounted, v.vfsMountedHere = some f ∧ s.vfss f = some mounted ∧
        c' = ⟨f, mounted.rootVnode, (nextName c.rest).2⟩) := by
  simp only [lookupEnter, bind_eq_ok, vnode_eq_ok] at h
  obtain ⟨v, hv, h⟩ := h
  refine ⟨v, hv, ?_⟩
  split at h
  next hmount => exact .inl ⟨hmount, (ok.inj h).symm⟩
  next f hmount =>
    simp only [bind_eq_ok, vfs_eq_ok] at h
    obtain ⟨mounted, hmounted, h⟩ := h
    exact .inr ⟨f, mounted, hmount, hmounted, (ok.inj h).symm⟩

theorem vnodeFree_eq {a : ℕ} (h : vnodeFree s a = .ok s') :
    ∃ v, s.mem.get a = some v ∧ s' = s.dropVnode a v := by
  simp only [vnodeFree, bind_eq_ok, vnode_eq_ok] at h
  obtain ⟨v, hv, h⟩ := h
  exact ⟨v, hv, (ok.inj h).symm⟩

def LookupRound (k : Kmalloc) (x y : Fal × Cursor) : Prop :=
  x.2.rest ≠ [] ∧ lookupStep k x.1 x.2 = .ok (some y.2, y.1)

theorem vnodeLookupFrom_rounds {fuel : ℕ} (h : vnodeLookupFrom k fuel s c = .ok (r, s')) :
    ∃ x, ReflTransGen (LookupRound k) (s, c) x ∧
      ((x.2.rest = [] ∧ r = some x.2.vnode ∧ s' = x.1) ∨
      (x.2.rest ≠ [] ∧ r = none ∧ lookupStep k x.1 x.2 = .ok (none, s'))) := by
  induction fuel generalizing s c with
  | zero =>
    unfold vnodeLookupFrom at h
    split at h
    next hrest =>
      cases h
      exact ⟨_, .refl, .inl ⟨hrest, rfl, rfl⟩⟩
    next => cases h
  | succ fuel ih =>
    unfold vnodeLookupFrom at h
    split at h
    next hrest =>
      cases h
      exact ⟨_, .refl, .inl ⟨hrest, rfl, rfl⟩⟩
    next hrest =>
      rw [bind_eq_ok] at h
      obtain ⟨⟨o, t⟩, hstep, h⟩ := h
      cases o with
      | none =>
        cases h
        exact ⟨_, .refl, .inr ⟨hrest, rfl, hstep⟩⟩
      | some c' =>
        obtain ⟨x, hrun, hend⟩ := ih h
        exact ⟨x, .head ⟨hrest, hstep⟩ hrun, hend⟩

section Rel
variable {R : Fal → Fal → Prop} (htrans : ∀ s t u, R s t → R t u → R s u)
  (herrno : ∀ s e, R s { s with kerrno := e })
  (hnew : ∀ s vfs e, s.Holds vfs e → R s (vnodeNew k s vfs e).2) (hdrop : ∀ s a v, R s (s.dropVnode a v))
include htrans herrno hnew hdrop

theorem lookupStep_rel (h : lookupStep k s c = .ok (o, s')) : R s s' := by
  obtain ⟨dir, -, ⟨-, rfl, -⟩ | ⟨r, t, -, hfs, hrecycle, -⟩⟩ := lookupStep_cases h
  · exact herrno s _
  have ht : R s t := by
    obtain ⟨dir, -, ⟨-, e, rfl⟩ | ⟨a, -, rfl, -⟩ | ⟨e, -, rfl, he⟩⟩ := fsLookup_cases hfs
    · exact herrno s e
    · exact herrno t t.kerrno
    · exact hnew s _ e he
  obtain ⟨vfs, -, rfl | ⟨-, -, hfree⟩⟩ := lookupRecycle_cases hrecycle
  · exact ht
  · obtain ⟨v, -, rfl⟩ := vnodeFree_eq hfree
    exact htrans _ _ _ ht (hdrop t _ v)

theorem LookupRound.rel_run {x y : Fal × Cursor} (h : ReflTransGen (LookupRound k) x y) :
    R x.1 y.1 :=
  @Runs.invariant _ _ (fun y => R x.1 y.1) _ _
    (fun _ _ hs h => htrans _ _ _ hs (lookupStep_rel htrans herrno hnew hdrop h.2))
    (herrno x.1 x.1.kerrno) h

/-- What a lookup does, change by change: it sets the error code, makes vnodes and frees vnodes. -/
theorem vnodeLookup_rel {path : List Char} (h : vnodeLookup k s path = .ok (r, s')) : R s s' := by
  unfold vnodeLookup at h
  split at h
  next rest =>
    simp only [bind_eq_ok, vfs_eq_ok] at h
    obtain ⟨root, -, h⟩ := h
    obtain ⟨x, hrun, hend⟩ := vnodeLookupFrom_rounds h
    have hx : R s x.1 :=
      htrans _ _ _ (herrno s 0) (LookupRound.rel_run htrans herrno hnew hdrop hrun)
    obtain ⟨-, -, rfl⟩ | ⟨-, -, hlast⟩ := hend
    · exact hx
    · exact htrans _ _ _ hx (lookupStep_rel htrans herrno hnew hdrop hlast)
  next =>
    cases h
    exact herrno s _

end Rel

end Lookup

section Links
variable {s t u : Fal} {a b x : ℕ} {v w : Vnode}

def Vnode.unlinked (v : Vnode) : Vnode := { v with next := none, prev := none }

/-- The vnode is on the list, as far as the links tell. -/
def Fal.Pointed (s : Fal) (a : ℕ) : Prop :=
  s.vnodeListHead = some a ∨ s.vnodeListTail = some a ∨ ∃ b, s.next b = some a ∨ s.prev b = some a

structure LinksOnly (s t : Fal) : Prop where
  content : ∀ b, (t.mem.get b).map Vnode.unlinked = (s.mem.get b).map Vnode.unlinked
  vfss : t.vfss = s.vfss
  rootVFS : t.rootVFS = s.rootVFS
  frees : t.frees = s.frees

theorem LinksOnly.refl (s : Fal) : LinksOnly s s := ⟨fun _ => rfl, rfl, rfl, rfl⟩

theorem LinksOnly.trans (h : LinksOnly s t) (h' : LinksOnly t u) : LinksOnly s u :=
  ⟨fun b => (h'.content b).trans (h.content b), h'.vfss.trans h.vfss, h'.rootVFS.trans h.rootVFS,
    h'.frees.trans h.frees⟩

theorem LinksOnly.setVnode (hv : s.mem.get a = some v) (hw : w.unlinked = v.unlinked) :
    LinksOnly s (s.setVnode a w) := by
  refine ⟨fun b => ?_, rfl, rfl, rfl⟩
  by_cases hb : b = a
  · simp [hb, hv, hw]
  · simp [hb]

theorem LinksOnly.get (h : LinksOnly s t) (hv : s.mem.get a = some v) :
    ∃ w, t.mem.get a = some w ∧ w.unlinked = v.unlinked := by
  have hmap := h.content a
  rw [hv, map_some, map_eq_some_iff] at hmap
  exact hmap

theorem LinksOnly.get_back (h : LinksOnly s t) (hw : t.mem.get a = some w) :
    ∃ v, s.mem.get a = some v ∧ w.unlinked = v.unlinked := by
  have hmap := (h.content a).symm
  rw [hw, map_some, map_eq_some_iff] at hmap
  obtain ⟨v, hv, heq⟩ := hmap
  exact ⟨v, hv, heq.symm⟩

theorem Vnode.refCount_of_unlinked (h : w.unlinked = v.unlinked) : w.refCount = v.refCount := by
  simpa [Vnode.unlinked] using congrArg Vnode.refCount h

theorem Fal.pointed_next (hv : s.mem.get a = some v) (h : v.next = some x) : s.Pointed x :=
  .inr (.inr ⟨a, .inl (by rw [next, hv]; exact h)⟩)

theorem Fal.pointed_prev (hv : s.mem.get a = some v) (h : v.prev = some x) : s.Pointed x :=
  .inr (.inr ⟨a, .inr (by rw [prev, hv]; exact h)⟩)

theorem Fal.Pointed.setVnode (h : (s.setVnode a w).Pointed x) :
    s.Pointed x ∨ w.next = some x ∨ w.prev = some x := by
  obtain h | h | ⟨b, h⟩ := h
  · exact .inl (.inl h)
  · exact .inl (.inr (.inl h))
  · rw [setVnode_next, setVnode_prev] at h
    by_cases hb : b = a
    · exact .inr (by simpa [hb] using h)
    · exact .inl (.inr (.inr ⟨b, by simpa [hb] using h⟩))

theorem Fal.Pointed.of_setVnode (h : (s.setVnode a w).Pointed x) (hv : s.mem.get a = some v)
    (hnext : w.next = v.next) (hprev : w.prev = v.prev) : s.Pointed x := by
  obtain h | h | h := h.setVnode
  · exact h
  · exact pointed_next hv (hnext ▸ h)
  · exact pointed_prev hv (hprev ▸ h)

theorem vnodeListAdd_cases (h : vnodeListAdd s a = .ok t) :
    (s.vnodeListHead = none ∧ ∃ v, s.mem.get a = some v ∧
      t = { s.setVnode a { v with next := none, prev := none } with
        vnodeListHead := some a, vnodeListTail := some a }) ∨
    ∃ l last v, s.vnodeListHead ≠ none ∧ s.vnodeListTail = some l ∧ s.mem.get l = some last ∧
      (s.setVnode l { last with next := some a }).mem.get a = some v ∧
      t = { (s.setVnode l { last with next := some a }).setVnode a
        { v with prev := some l, next := none } with vnodeListTail := some a } := by
  unfold vnodeListAdd at h
  split at h
  next hhead =>
    simp only [bind_eq_ok, vnode_eq_ok] at h
    obtain ⟨v, hv, h⟩ := h
    exact .inl ⟨hhead, v, hv, (ok.inj h).symm⟩
  next first hhead =>
    split at h
    next => cases h
    next l htail =>
      simp only [bind_eq_ok, vnode_eq_ok] at h
      obtain ⟨last, hlast, v, hv, h⟩ := h
      exact .inr ⟨l, last, v, by simp [hhead], htail, hlast, hv, (ok.inj h).symm⟩

theorem vnodeListAdd_links (h : vnodeListAdd s a = .ok t) :
    LinksOnly s t ∧ ∀ x, t.Pointed x → s.Pointed x ∨ x = a := by
  obtain ⟨hhead, v, hv, rfl⟩ | ⟨l, last, v, hhead, htail, hlast, hv, rfl⟩ := vnodeListAdd_cases h
  · constructor
    · have hstore : LinksOnly s (s.setVnode a { v with next := none, prev := none }) :=
        .setVnode hv rfl
      exact ⟨hstore.content, rfl, rfl, rfl⟩
    · rintro x (hx | hx | ⟨b, hb⟩)
      · exact .inr (some.inj hx).symm
      · exact .inr (some.inj hx).symm
      · have hp : (s.setVnode a { v with next := none, prev := none }).Pointed x :=
            .inr (.inr ⟨b, hb⟩)
        obtain hp | hp | hp := hp.setVnode
        · exact .inl hp
        all_goals cases hp
  · constructor
    · have hfirst : LinksOnly s (s.setVnode l { last with next := some a }) := .setVnode hlast rfl
      have hsecond : LinksOnly _ ((s.setVnode l { last with next := some a }).setVnode a
        { v with prev := some l, next := none }) := .setVnode hv rfl
      exact ⟨(hfirst.trans hsecond).content, rfl, rfl, rfl⟩
    · intro x hx
      have hp : x = a ∨ ((s.setVnode l { last with next := some a }).setVnode a
          { v with prev := some l, next := none }).Pointed x := by
        obtain hx | hx | hx := hx
        · exact .inr (.inl hx)
        · exact .inl (some.inj hx).symm
        · exact .inr (.inr (.inr hx))
      obtain rfl | hp := hp
      · exact .inr rfl
      obtain hp | hp | hp := hp.setVnode
      · obtain hp | hp | hp := hp.setVnode
        · exact .inl hp
        · exact .inr (some.inj hp).symm
        · exact .inl (pointed_prev hlast hp)
      · cases hp
      · exact .inl (.inr (.inl (htail.trans hp)))

theorem vnodeStorePrev_links {n p : Option ℕ} (h : vnodeStorePrev s n p = .ok t)
    (hp : ∀ x, p = some x → s.Pointed x) : LinksOnly s t ∧ ∀ x, t.Pointed x → s.Pointed x := by
  cases n with
  | none =>
    cases h
    exact ⟨.refl s, fun _ hx => hx⟩
  | some n =>
    simp only [vnodeStorePrev, bind_eq_ok, vnode_eq_ok] at h
    obtain ⟨v, hv, h⟩ := h
    cases h
    refine ⟨.setVnode hv rfl, fun x hx => ?_⟩
    obtain hx | hx | hx := hx.setVnode
    · exact hx
    · exact pointed_next hv hx
    · exact hp x hx

theorem vnodeStoreNext_links {n p : Option ℕ} (h : vnodeStoreNext s p n = .ok t)
    (hn : ∀ x, n = some x → s.Pointed x) : LinksOnly s t ∧ ∀ x, t.Pointed x → s.Pointed x := by
  cases p with
  | none =>
    cases h
    exact ⟨.refl s, fun _ hx => hx⟩
  | some p =>
    simp only [vnodeStoreNext, bind_eq_ok, vnode_eq_ok] at h
    obtain ⟨v, hv, h⟩ := h
    cases h
    refine ⟨.setVnode hv rfl, fun x hx => ?_⟩
    obtain hx | hx | hx := hx.setVnode
    · exact hx
    · exact hn x hx
    · exact pointed_prev hv hx

theorem vnodeUnlink_links (h : vnodeUnlink s a = .ok t) :
    LinksOnly s t ∧ ∀ x, t.Pointed x → s.Pointed x := by
  simp only [vnodeUnlink, bind_eq_ok, vnode_eq_ok] at h
  obtain ⟨v, hv, m, hm, w, hw, h⟩ := h
  obtain ⟨hfirst, hpointed⟩ := vnodeStorePrev_links hm fun x hx => pointed_prev hv hx
  obtain ⟨hsecond, hpointed'⟩ := vnodeStoreNext_links h fun x hx => pointed_next hw hx
  exact ⟨hfirst.trans hsecond, fun x hx => hpointed x (hpointed' x hx)⟩

theorem vnodeListRemove_links (h : vnodeListRemove s a = .ok t) :
    LinksOnly s t ∧ ∀ x, t.Pointed x → s.Pointed x := by
  simp only [vnodeListRemove, bind_eq_ok, vnode_eq_ok] at h
  obtain ⟨v, hv, h⟩ := h
  obtain ⟨hlinks, hpointed⟩ := vnodeUnlink_links h
  refine ⟨⟨hlinks.content, hlinks.vfss, hlinks.rootVFS, hlinks.frees⟩, fun x hx => ?_⟩
  obtain hx | hx | hx := hpointed x hx
  · split at hx
    · exact pointed_next hv hx
    · exact .inl hx
  · dsimp only at hx
    split at hx
    · exact pointed_prev hv hx
    · exact .inr (.inl hx)
  · exact .inr (.inr hx)

end Links

section OpenClose
variable {k : Kmalloc} {s t : Fal} {a : ℕ} {path : List Char} {flags mode : BitVec 32}
    {r : Option ℕ}

def Vnode.referenced (v : Vnode) : Vnode := { v with refCount := v.refCount + 1 }

def Vnode.dereferenced (v : Vnode) : Vnode := { v with refCount := v.refCount - 1 }

theorem vnodeOpenAt_cases (h : vnodeOpenAt s a path flags mode = .ok (r, t)) :
    ∃ v, s.mem.get a = some v ∧
      ((r = none ∧ ∃ e, t = { s with kerrno := e }) ∨
      ∃ found, r = some a ∧
        vnodeListSearchByFilename (s.setVnode a v.referenced) v.vfs path = .ok found ∧
        ((found ≠ none ∧ t = s.setVnode a v.referenced) ∨
        found = none ∧ ∃ u w, vnodeListAdd (s.setVnode a v.referenced) a = .ok u ∧
          u.mem.get a = some w ∧ t = u.setVnode a { w with flags := flags, mode := mode })) := by
  simp only [vnodeOpenAt, bind_eq_ok, vnode_eq_ok] at h
  obtain ⟨v, hv, h⟩ := h
  refine ⟨v, hv, ?_⟩
  split at h
  · cases h
    exact .inl ⟨rfl, _, rfl⟩
  split at h
  · cases h
    exact .inl ⟨rfl, _, rfl⟩
  rw [bind_eq_ok] at h
  obtain ⟨found, hfound, h⟩ := h
  right
  cases found with
  | some b =>
    cases h
    exact ⟨some b, rfl, hfound, .inl ⟨nofun, rfl⟩⟩
  | none =>
    simp only [bind_eq_ok, vnode_eq_ok] at h
    obtain ⟨u, hu, w, hw, h⟩ := h
    cases h
    exact ⟨none, rfl, hfound, .inr ⟨rfl, u, w, hu, hw, rfl⟩⟩

theorem vnodeOpen_cases (h : vnodeOpen k s path flags mode = .ok (r, t)) :
    ∃ o u, vnodeLookup k s path = .ok (o, u) ∧
      ((o = none ∧ r = none ∧ t = u) ∨ ∃ a,
        o = some a ∧ vnodeOpenAt u a path flags mode = .ok (r, t)) := by
  rw [vnodeOpen, bind_eq_ok] at h
  obtain ⟨⟨o, u⟩, hlookup, h⟩ := h
  refine ⟨o, u, hlookup, ?_⟩
  cases o with
  | none =>
    cases h
    exact .inl ⟨rfl, rfl, rfl⟩
  | some a => exact .inr ⟨a, rfl, h⟩

theorem vnodeClose_cases (h : vnodeClose s a = .ok t) :
    ∃ v, s.mem.get a = some v ∧
      ((v.refCount = 1 ∧ ∃ u, vnodeListRemove { s.setVnode a v.dereferenced with kerrno := 0 } a = .ok u ∧
        vnodeFree u a = .ok t) ∨
      v.refCount ≠ 1 ∧ t = { s.setVnode a v.dereferenced with kerrno := 0 }) := by
  simp only [vnodeClose, bind_eq_ok, vnode_eq_ok] at h
  obtain ⟨v, hv, h⟩ := h
  refine ⟨v, hv, ?_⟩
  split at h
  next hzero =>
    rw [bind_eq_ok] at h
    exact .inl ⟨by omega, h⟩
  next hzero => exact .inr ⟨by omega, (ok.inj h).symm⟩

end OpenClose

section Files
variable {k : Kmalloc} {s t : Fal} {a : ℕ} {path : List Char} {r : Option ℕ}

def Vnode.entry (v : Vnode) : Entry := ⟨v.filename, v.type, v.size, v.ops⟩

/-- The file systems stay; each vnode is one that was there, or its driver has found its file. -/
structure FilesUsed (s t : Fal) : Prop where
  vfss : t.vfss = s.vfss
  rootVFS : t.rootVFS = s.rootVFS
  vnodes : ∀ a v, t.mem.get a = some v →
    (∃ w, s.mem.get a = some w ∧ w.vfs = v.vfs ∧ w.entry = v.entry) ∨ s.Holds v.vfs v.entry

theorem FilesUsed.of_mem (hvfss : t.vfss = s.vfss) (hroot : t.rootVFS = s.rootVFS)
    (hmem : t.mem = s.mem) : FilesUsed s t :=
  ⟨hvfss, hroot, fun _ v hv => .inl ⟨v, hmem ▸ hv, rfl, rfl⟩⟩

theorem FilesUsed.trans {u : Fal} (h : FilesUsed s t) (h' : FilesUsed t u) : FilesUsed s u := by
  refine ⟨h'.vfss.trans h.vfss, h'.rootVFS.trans h.rootVFS, fun a v hv => ?_⟩
  obtain ⟨w, hw, hvfs, hentry⟩ | ⟨x, dir, name, hx, hfind⟩ := h'.vnodes a v hv
  · rw [← hvfs, ← hentry]
    exact h.vnodes a w hw
  · exact .inr ⟨x, dir, name, h.vfss ▸ hx, hfind⟩

theorem FilesUsed.setVnode {v w : Vnode} (hv : s.mem.get a = some v) (hvfs : v.vfs = w.vfs)
    (hentry : v.entry = w.entry) : FilesUsed s (s.setVnode a w) := by
  refine ⟨rfl, rfl, fun b x hx => .inl ?_⟩
  by_cases hb : b = a
  · rw [hb, setVnode_get, update_self] at hx
    cases hx
    exact ⟨v, hb ▸ hv, hvfs, hentry⟩
  · rw [setVnode_get, update_of_ne hb] at hx
    exact ⟨x, hx, rfl, rfl⟩

theorem FilesUsed.dropVnode (s : Fal) (a : ℕ) (v : Vnode) : FilesUsed s (s.dropVnode a v) :=
  ⟨rfl, rfl, fun _ x hx => .inl ⟨x, get_of_dropVnode hx, rfl, rfl⟩⟩

theorem LinksOnly.filesUsed (h : LinksOnly s t) : FilesUsed s t := by
  refine ⟨h.vfss, h.rootVFS, fun a w hw => .inl ?_⟩
  obtain ⟨v, hv, heq⟩ := h.get_back hw
  have hvfs := congrArg Vnode.vfs heq
  have hentry := congrArg Vnode.entry heq
  exact ⟨v, hv, hvfs.symm, hentry.symm⟩

theorem vnodeLookup_filesUsed (h : vnodeLookup k s path = .ok (r, t)) : FilesUsed s t := by
  refine vnodeLookup_rel (fun _ _ _ => FilesUsed.trans) (fun _ _ => .of_mem rfl rfl rfl)
    (fun s f e he => ⟨rfl, rfl, fun a v hv => ?_⟩) FilesUsed.dropVnode h
  simp only [vnodeNew, setVnode_get, update_apply] at hv
  split at hv
  · cases hv
    exact .inr he
  · exact .inl ⟨v, hv, rfl, rfl⟩

theorem vnodeOpen_filesUsed {flags mode : BitVec 32}
    (h : vnodeOpen k s path flags mode = .ok (r, t)) : FilesUsed s t := by
  obtain ⟨o, u, hlookup, ⟨-, -, rfl⟩ | ⟨a, -, hat⟩⟩ := vnodeOpen_cases h
  · exact vnodeLookup_filesUsed hlookup
  refine (vnodeLookup_filesUsed hlookup).trans ?_
  obtain ⟨v, hv, ⟨-, e, rfl⟩ | ⟨found, -, -, hend⟩⟩ := vnodeOpenAt_cases hat
  · exact .of_mem rfl rfl rfl
  have hcount : FilesUsed u (u.setVnode a v.referenced) := .setVnode hv rfl rfl
  obtain ⟨-, rfl⟩ | ⟨-, x, w, hadd, hw, rfl⟩ := hend
  · exact hcount
  · exact (hcount.trans (vnodeListAdd_links hadd).1.filesUsed).trans (.setVnode hw rfl rfl)

theorem vnodeClose_filesUsed (h : vnodeClose s a = .ok t) : FilesUsed s t := by
  obtain ⟨v, hv, hend⟩ := vnodeClose_cases h
  have hcount : FilesUsed s (s.setVnode a v.dereferenced) := .setVnode hv rfl rfl
  have herrno := hcount.trans (.of_mem (t := { s.setVnode a v.dereferenced with kerrno := 0 })
    rfl rfl rfl)
  obtain ⟨-, u, hremove, hfree⟩ | ⟨-, rfl⟩ := hend
  · obtain ⟨w, -, rfl⟩ := vnodeFree_eq hfree
    exact (herrno.trans (vnodeListRemove_links hremove).1.filesUsed).trans (.dropVnode u a w)
  · exact herrno

end Files

end GarnOS
