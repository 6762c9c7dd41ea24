import GarnOS.Fal.VnodeUse

/-! The list of open vnodes: which calls keep it in order. -/
namespace GarnOS
open Outcome Chain Relation List Separated Option

section Order
variable {k : Kmalloc} {s t : Fal} {a b x : ℕ} {l : List ℕ}

/-- The list from `vnodeListHead` via `next` ends, has every open vnode once and no other,
`vnodeListTail` is its last vnode, and `prev` is the inverse of `next`. -/
def Fal.InOrder (s : Fal) : Prop :=
  ∃ l, Visits s.next s.vnodeListHead l ∧ l.Nodup ∧ (∀ a, a ∈ l ↔ s.Open a) ∧
    s.vnodeListTail = l.getLast? ∧
    ∀ b ∈ l, ∀ a, s.prev b = some a ↔ a ∈ l ∧ s.next a = some b

/-- The list is `l`, in both directions, and has the open vnodes. -/
structure Fal.Listed (s : Fal) (l : List ℕ) : Prop where
  linked : Linked s.next s.prev s.vnodeListHead s.vnodeListTail l
  all : ∀ a, a ∈ l ↔ s.Open a

theorem Fal.Listed.inOrder (h : s.Listed l) : s.InOrder := by
  refine ⟨l, h.linked.forward, h.linked.nodup, h.all, h.linked.tail_eq, fun b hb a => ⟨?_, ?_⟩⟩
  · intro hprev
    obtain ⟨p, q, rfl⟩ := append_of_mem hb
    have ha : a ∈ p := mem_of_getLast? (h.linked.prev_eq ▸ hprev)
    have hmem : a ∈ p ++ b :: q := mem_append_left _ ha
    exact ⟨hmem, (h.linked.inverse hmem hb).mpr hprev⟩
  · rintro ⟨ha, hnext⟩
    exact (h.linked.inverse ha hb).mp hnext

theorem Fal.Listed.congr (h : s.Listed l) (hhead : t.vnodeListHead = s.vnodeListHead)
    (htail : t.vnodeListTail = s.vnodeListTail) (hnext : ∀ a ∈ l, t.next a = s.next a)
    (hprev : ∀ a ∈ l, t.prev a = s.prev a) (hopen : ∀ a, t.Open a ↔ s.Open a) : t.Listed l := by
  refine ⟨?_, fun a => (h.all a).trans (hopen a).symm⟩
  rw [hhead, htail]
  exact h.linked.congr hnext hprev

theorem Fal.Listed.ne_of_closed (h : s.Listed l) (hclosed : ¬s.Open a) : ∀ b ∈ l, b ≠ a := by
  rintro b hb rfl
  exact hclosed ((h.all b).mp hb)

theorem LookupEffect.listed (heffect : LookupEffect s t) (h : s.Listed l) : t.Listed l := by
  have hopen : ∀ x, t.Open x ↔ s.Open x := fun _ => heffect.open_iff
  cases heffect with
  | errno e => exact ⟨h.linked, h.all⟩
  | create a v hfresh hcount hmount hnext hprev =>
    have hne : ∀ b ∈ l, b ≠ a := h.ne_of_closed (by simp [Fal.Open, hfresh])
    refine h.congr rfl rfl (fun b hb => ?_) (fun b hb => ?_) hopen
    · rw [setVnode_next, if_neg (hne b hb)]
    · rw [setVnode_prev, if_neg (hne b hb)]
  | recycle a v hv hunused =>
    have hclosed : ¬s.Open a := fun ha => (dropVnode_open.mp ((hopen a).mpr ha)).1 rfl
    have hne := h.ne_of_closed hclosed
    refine h.congr rfl rfl (fun b hb => ?_) (fun b hb => ?_) hopen
    · rw [dropVnode_next, if_neg (hne b hb)]
    · rw [dropVnode_prev, if_neg (hne b hb)]

theorem setVnode_links {v w : Vnode} (hv : s.mem.get a = some v) (hnext : w.next = v.next)
    (hprev : w.prev = v.prev) : (s.setVnode a w).next = s.next ∧
    (s.setVnode a w).prev = s.prev := by
  constructor
  · funext b
    rw [setVnode_next]
    split
    next hb => rw [hnext, hb, Fal.next, hv, bind_some]
    next => rfl
  · funext b
    rw [setVnode_prev]
    split
    next hb => rw [hprev, hb, Fal.prev, hv, bind_some]
    next => rfl

theorem Fal.Listed.setVnode {v w : Vnode} (h : s.Listed l) (hv : s.mem.get a = some v)
    (hnext : w.next = v.next) (hprev : w.prev = v.prev) (hcount : 0 < w.refCount ↔ 0 < v.refCount) :
    (s.setVnode a w).Listed l := by
  obtain ⟨hn, hp⟩ := setVnode_links hv hnext hprev
  refine h.congr rfl rfl (fun b _ => congrFun hn b) (fun b _ => congrFun hp b) fun x => ?_
  rw [setVnode_open]
  split
  next hx => simp [Fal.Open, hx, hv, hcount]
  next => rfl

theorem vnodeListAdd_listed (hlinked : Linked s.next s.prev s.vnodeListHead s.vnodeListTail l)
    (ha : a ∉ l) (hadd : vnodeListAdd s a = .ok t) :
    Linked t.next t.prev t.vnodeListHead t.vnodeListTail (l ++ [a]) := by
  have hfirst := hlinked.forward.head
  obtain ⟨hhead, v, hv, rfl⟩ | ⟨m, last, v, hhead, htail, hlast, hv, rfl⟩ := vnodeListAdd_cases hadd
  · obtain rfl : l = [] := head?_eq_none_iff.mp (hfirst ▸ hhead)
    refine ⟨⟨rfl, ?_⟩, rfl, ?_⟩
    · exact setVnode_next.trans (if_pos rfl)
    · exact setVnode_prev.trans (if_pos rfl)
  · have hne : l ≠ [] := by
      rintro rfl
      exact hhead hfirst
    have hm : l.getLast? = some m := hlinked.tail_eq.symm.trans htail
    have hma : m ≠ a := fun heq => ha (heq ▸ mem_of_getLast? hm)
    generalize hu : (s.setVnode m { last with next := some a }).setVnode a
      { v with prev := some m, next := none } = u at *
    have hnext : ∀ b, u.next b = if b = a then none else if b = m then some a else s.next b := by
      intro b
      rw [← hu, setVnode_next, setVnode_next]
    have hprev : ∀ b, u.prev b = if b = a then some m else s.prev b := by
      intro b
      rw [← hu, setVnode_prev, setVnode_prev]
      by_cases hbm : b = m
      · simp [hbm, Fal.prev, hlast]
      · simp [hbm]
    have hgoal : Linked u.next u.prev (if l = [] then some a else s.vnodeListHead) (some a)
        (l ++ [a]) := by
      have hba : ∀ b ∈ l, b ≠ a := fun b hb heq => ha (heq ▸ hb)
      apply hlinked.append
      · intro b hb hnot
        have hbm : b ≠ m := fun heq => hnot (heq ▸ hm)
        rw [hnext, if_neg (hba b hb), if_neg hbm]
      · intro b hb
        cases hb.symm.trans hm
        rw [hnext, if_neg hma, if_pos rfl]
      · rw [hnext, if_pos rfl]
      · intro b hb
        rw [hprev, if_neg (hba b hb)]
      · rw [hprev, if_pos rfl, htail]
    have hhead' : u.vnodeListHead = s.vnodeListHead := by
      rw [← hu, setVnode_head, setVnode_head]
    rw [if_neg hne, ← hhead'] at hgoal
    exact hgoal

theorem vnodeStorePrev_eq {n p : Option ℕ} (h : vnodeStorePrev s n p = .ok t) :
    t.vnodeListHead = s.vnodeListHead ∧ t.vnodeListTail = s.vnodeListTail ∧ t.next = s.next ∧
      ∀ x, t.prev x = if n = some x then p else s.prev x := by
  cases n with
  | none =>
    cases h
    exact ⟨rfl, rfl, rfl, fun _ => rfl⟩
  | some n =>
    simp only [vnodeStorePrev, bind_eq_ok, Fal.vnode_eq_ok] at h
    obtain ⟨v, hv, h⟩ := h
    cases h
    refine ⟨rfl, rfl, funext fun x => ?_, fun x => ?_⟩
    · rw [setVnode_next]
      split
      next hx => rw [hx, Fal.next, hv, bind_some]
      next => rfl
    · rw [setVnode_prev]
      simp [some.injEq, eq_comm]

theorem vnodeStoreNext_eq {n p : Option ℕ} (h : vnodeStoreNext s p n = .ok t) :
    t.vnodeListHead = s.vnodeListHead ∧ t.vnodeListTail = s.vnodeListTail ∧ t.prev = s.prev ∧
      ∀ x, t.next x = if p = some x then n else s.next x := by
  cases p with
  | none =>
    cases h
    exact ⟨rfl, rfl, rfl, fun _ => rfl⟩
  | some p =>
    simp only [vnodeStoreNext, bind_eq_ok, Fal.vnode_eq_ok] at h
    obtain ⟨v, hv, h⟩ := h
    cases h
    refine ⟨rfl, rfl, funext fun x => ?_, fun x => ?_⟩
    · rw [setVnode_prev]
      split
      next hx => rw [hx, Fal.prev, hv, bind_some]
      next => rfl
    · rw [setVnode_next]
      simp [some.injEq, eq_comm]

theorem vnodeListRemove_eq (h : vnodeListRemove s a = .ok t) (hself : s.next a ≠ some a) :
    t.vnodeListHead = (if s.vnodeListHead = some a then s.next a else s.vnodeListHead) ∧
      t.vnodeListTail = (if s.vnodeListTail = some a then s.prev a else s.vnodeListTail) ∧
      (∀ x, t.next x = if s.prev a = some x then s.next a else s.next x) ∧
      ∀ x, t.prev x = if s.next a = some x then s.prev a else s.prev x := by
  simp only [vnodeListRemove, vnodeUnlink, bind_eq_ok, Fal.vnode_eq_ok] at h
  obtain ⟨v, hv, v', hv', m, hm, w, hw, h⟩ := h
  cases hv'.symm.trans hv
  have hvnext : s.next a = v.next := by rw [Fal.next, hv, bind_some]
  have hvprev : s.prev a = v.prev := by rw [Fal.prev, hv, bind_some]
  obtain ⟨hmhead, hmtail, hmnext, hmprev⟩ := vnodeStorePrev_eq hm
  obtain ⟨hthead, httail, htprev, htnext⟩ := vnodeStoreNext_eq h
  have hwnext : w.next = v.next := by
    have hnext := congrFun hmnext a
    rw [Fal.next, hw, bind_some] at hnext
    exact hnext.trans hvnext
  have hwprev : w.prev = v.prev := by
    have hprev := hmprev a
    rw [Fal.prev, hw, bind_some, if_neg (hvnext ▸ hself)] at hprev
    exact hprev.trans hvprev
  rw [hvnext, hvprev]
  refine ⟨hthead.trans hmhead, httail.trans hmtail, fun x => ?_, fun x => ?_⟩
  · rw [htnext, hwnext, hwprev, hmnext]
    rfl
  · rw [htprev, hmprev]
    rfl

theorem LinksOnly.open_iff (h : LinksOnly s t) : t.Open x ↔ s.Open x := by
  constructor
  · rintro ⟨w, hw, hpos⟩
    obtain ⟨v, hv, heq⟩ := h.get_back hw
    exact ⟨v, hv, Vnode.refCount_of_unlinked heq ▸ hpos⟩
  · rintro ⟨v, hv, hpos⟩
    obtain ⟨w, hw, heq⟩ := h.get hv
    exact ⟨w, hw, (Vnode.refCount_of_unlinked heq).symm ▸ hpos⟩

/-- The part of `vnode_open` after the lookup puts a vnode on the list that was not open, if the
search for the path tells this. -/
theorem vnodeOpenAt_listed {path : List Char} {flags mode : BitVec 32} {r : Option ℕ} (hs : s.Sound)
    (h : s.Listed l)
    (hseen : ∀ v found, s.mem.get a = some v →
      vnodeListSearchByFilename (s.setVnode a v.referenced) v.vfs path = .ok found →
      (found ≠ none ↔ s.Open a))
    (hopen : vnodeOpenAt s a path flags mode = .ok (r, t)) : ∃ l, t.Listed l := by
  obtain ⟨v, hv, ⟨-, e, rfl⟩ | ⟨found, -, hfound, hcase⟩⟩ := vnodeOpenAt_cases hopen
  · exact ⟨l, h.linked, h.all⟩
  have hiff := hseen v found hv hfound
  have hnonneg := hs.nonneg a v hv
  have hpos : 0 < v.referenced.refCount := by
    simp only [Vnode.referenced]
    omega
  obtain ⟨hne, rfl⟩ | ⟨hnone, u, w, hadd, hw, rfl⟩ := hcase
  · -- already on the list
    obtain ⟨w, hw, hcount⟩ := hiff.mp hne
    cases hw.symm.trans hv
    exact ⟨l, h.setVnode hv rfl rfl (iff_of_true hpos hcount)⟩
  · have hclosed : ¬s.Open a := fun hopen => hiff.mpr hopen hnone
    have ha : a ∉ l := fun hmem => hclosed ((h.all a).mp hmem)
    have hlinked : Linked (s.setVnode a v.referenced).next (s.setVnode a v.referenced).prev
        s.vnodeListHead s.vnodeListTail l := by
      obtain ⟨hnext, hprev⟩ := setVnode_links (w := v.referenced) hv rfl rfl
      rw [hnext, hprev]
      exact h.linked
    obtain ⟨hlinks, -⟩ := vnodeListAdd_links hadd
    have hu : u.Listed (l ++ [a]) := by
      refine ⟨vnodeListAdd_listed hlinked ha hadd, fun x => ?_⟩
      rw [hlinks.open_iff, setVnode_open, mem_append, mem_singleton, h.all]
      by_cases hx : x = a
      · simp [hx, hpos]
      · simp [hx]
    exact ⟨l ++ [a], hu.setVnode hw rfl rfl Iff.rfl⟩

theorem vnodeClose_listed (h : s.Listed l) (hopen : s.Open a) (hclose : vnodeClose s a = .ok t) :
    ∃ l, t.Listed l := by
  obtain ⟨v, hv, ⟨hone, u, hremove, hfree⟩ | ⟨hne, rfl⟩⟩ := vnodeClose_cases hclose
  · obtain ⟨p, q, rfl⟩ := append_of_mem ((h.all a).mpr hopen)
    obtain ⟨w, hw, rfl⟩ := vnodeFree_eq hfree
    have hi : a ∉ p ++ q := (nodup_cons.mp (nodup_middle.mp h.linked.nodup)).1
    have hne : ∀ b ∈ p ++ q, b ≠ a := fun b hb heq => hi (heq ▸ hb)
    obtain ⟨hnext, hprev⟩ := setVnode_links (w := v.dereferenced) hv rfl rfl
    have hlinked : Linked (s.setVnode a v.dereferenced).next (s.setVnode a v.dereferenced).prev
        s.vnodeListHead s.vnodeListTail (p ++ a :: q) := by
      rw [hnext, hprev]
      exact h.linked
    obtain ⟨hhead, htail, hunext, huprev⟩ := vnodeListRemove_eq hremove hlinked.next_ne_self
    obtain ⟨hlinks, -⟩ := vnodeListRemove_links hremove
    have hout := hlinked.unlink hunext huprev
    refine ⟨p ++ q, ?_, fun x => ?_⟩
    · rw [dropVnode_head, dropVnode_tail, hhead, htail]
      refine hout.congr (fun b hb => ?_) fun b hb => ?_
      · rw [dropVnode_next, if_neg (hne b hb)]
      · rw [dropVnode_prev, if_neg (hne b hb)]
    · have hcount : ({ s.setVnode a v.dereferenced with kerrno := 0 } : Fal).Open x ↔
          (s.setVnode a v.dereferenced).Open x := Iff.rfl
      rw [dropVnode_open, hlinks.open_iff, hcount, setVnode_open]
      have hall := h.all x
      rw [mem_append, mem_cons] at hall
      by_cases hx : x = a
      · subst hx
        simpa using hi
      · simpa [hx] using hall
  · obtain ⟨w, hw, hpos⟩ := hopen
    cases hw.symm.trans hv
    have hpos' : 0 < v.dereferenced.refCount := by
      simp only [Vnode.dereferenced]
      omega
    have hl := h.setVnode (w := v.dereferenced) hv rfl rfl (iff_of_true hpos' hpos)
    exact ⟨l, hl.linked, hl.all⟩

/-- The search of `vnode_open` for the path finds something exactly if the vnode of the path is open
already. -/
def SeenOk (k : Kmalloc) (s : Fal) (path : List Char) : Prop :=
  ∀ a u v found, vnodeLookup k s path = .ok (some a, u) → u.mem.get a = some v →
    vnodeListSearchByFilename (u.setVnode a v.referenced) v.vfs path = .ok found →
    (found ≠ none ↔ u.Open a)

/-- Opens whose search by path tells whether the vnode is on the list, and that recycle no open
vnode on their way; closes that do not free a root or a mount point. -/
inductive OrderlyStep (k : Kmalloc) : Fal → Fal → Prop
  | openVnode {s t : Fal} {r : Option ℕ} (path : List Char) (flags mode : BitVec 32)
      (hwalk : WalkOk k s path) (hseen : SeenOk k s path)
      (h : vnodeOpen k s path flags mode = .ok (r, t)) : OrderlyStep k s t
  | closeVnode {s t : Fal} (a : ℕ) (hopen : s.Open a)
      (hlast : ∀ v, s.mem.get a = some v → v.refCount = 1 → ¬s.IsRoot a ∧ v.vfsMountedHere = none)
      (h : vnodeClose s a = .ok t) : OrderlyStep k s t

theorem LookupEffect.listed_run (heffect : ReflTransGen LookupEffect s t) (h : s.Listed l) :
    t.Listed l :=
  @Runs.invariant _ _ (fun s => s.Listed l) _ _ (fun _ _ h heffect => heffect.listed h) h heffect

theorem OrderlyStep.listed (hstep : OrderlyStep k s t) (h : s.Sound ∧ ∃ l, s.Listed l) :
    t.Sound ∧ ∃ l, t.Listed l := by
  obtain ⟨hs, l, hl⟩ := h
  cases hstep with
  | openVnode path flags mode hwalk hseen h =>
    refine ⟨(vnodeOpen_sound hs hwalk h).1, ?_⟩
    obtain ⟨o, u, hlookup, hcase⟩ := vnodeOpen_cases h
    have heffect := vnodeLookup_effect hs hwalk hlookup
    have hu := LookupEffect.listed_run heffect hl
    obtain ⟨-, -, rfl⟩ | ⟨a, rfl, hat⟩ := hcase
    · exact ⟨l, hu⟩
    · exact vnodeOpenAt_listed (LookupEffect.sound_run heffect hs) hu
        (fun v found hv => hseen a u v found hlookup hv) hat
  | closeVnode a hopen hlast h =>
    exact ⟨(vnodeClose_sound hs hopen hlast h).1, vnodeClose_listed hl hopen h⟩

/-- The list of open vnodes stays in order in every run of opens and closes that meet the
conditions. -/
theorem vnode_list_in_order {s₀ : Fal} (hs : s₀.Sound) (hl : s₀.Listed l)
    (hrun : ReflTransGen (OrderlyStep k) s₀ s) : s.InOrder := by
  have hend : s.Sound ∧ ∃ l, s.Listed l :=
    @Runs.invariant _ _ (fun s : Fal => s.Sound ∧ ∃ l, s.Listed l) _ _
      (fun _ _ h hstep => hstep.listed h) ⟨hs, l, hl⟩ hrun
  obtain ⟨-, l, hlisted⟩ := hend
  exact hlisted.inOrder

/-- Before an open: no root is open, nor a vnode whose name ends in a name on the path, and nothing
is known by the path itself. -/
structure Fal.Unopened (s : Fal) (path : List Char) : Prop where
  roots : ∀ b, s.IsRoot b → ¬s.Open b
  closed : ∀ a v, s.mem.get a = some v → 0 < v.refCount →
    ∀ name ∈ splitAfter '/' path.tail, ¬name <:+ v.filename
  vnodes : ∀ a v, s.mem.get a = some v → v.filename ≠ path
  drivers : ∀ f e, s.Holds f e → e.filename ≠ path

theorem Fal.Unopened.closedPath {path : List Char} (h : s.Unopened path) : s.ClosedPath path :=
  fun a v hv hpos name hname => h.closed a v hv hpos name (mem_of_mem_dropLast hname)

theorem Fal.Unopened.seenOk {path : List Char} (h : s.Unopened path) : SeenOk k s path := by
  intro a u v found hlookup hv hfound
  have hused := vnodeLookup_filesUsed hlookup
  refine iff_of_false (fun hsome => ?_) fun hopen => ?_
  · obtain ⟨b, rfl⟩ := ne_none_iff_exists'.mp hsome
    obtain ⟨⟨w, -, -, hw, -, -, -, hname⟩, -⟩ := vnodeListSearchFrom_some hfound
    obtain ⟨y, hy, hyw⟩ : ∃ y, u.mem.get b = some y ∧ y.filename = w.filename := by
      by_cases hb : b = a
      · rw [hb, setVnode_get, Function.update_self] at hw
        cases hw
        exact ⟨v, hb ▸ hv, rfl⟩
      · rw [setVnode_get, Function.update_of_ne hb] at hw
        exact ⟨w, hw, rfl⟩
    obtain ⟨z, hz, -, hentry⟩ | hholds := hused.vnodes b y hy
    · exact h.vnodes b z hz ((congrArg Entry.filename hentry).trans (hyw.trans hname))
    · exact h.drivers _ _ hholds (hyw.trans hname)
  · obtain ⟨w, hw, hpos⟩ := hopen
    unfold vnodeLookup at hlookup
    split at hlookup
    next rest =>
      simp only [bind_eq_ok, Fal.vfs_eq_ok] at hlookup
      obtain ⟨root, hroot, hlookup⟩ := hlookup
      obtain ⟨x, hrun, ⟨hrest, hr, rfl⟩ | ⟨-, hr, -⟩⟩ := vnodeLookupFrom_rounds hlookup
      · cases hr
        have hold := (LookupRound.opensKept hrun).2 _ w hw hpos
        obtain ⟨done, hdone, ⟨y, hy, heq⟩ | ⟨name, hname, hends⟩⟩ :=
          LookupRound.cursor hrun ⟨root, hroot, rfl⟩
        · rw [hused.vfss] at hy
          exact h.roots _ ⟨_, y, hy, heq⟩ ⟨w, hold, hpos⟩
        · refine h.closed _ w hold hpos name ?_ (hends w hw hpos)
          rw [tail_cons, hdone]
          exact mem_append_left _ (mem_of_getLast? hname)
      · cases hr
    next => cases hlookup

theorem initrdInit_listed (members : List TarMember) : (initrdInit members).Listed [] :=
  ⟨⟨rfl, rfl⟩, fun a => iff_of_false (by simp) (initrdInit_closed members a)⟩

theorem unopened_initrd {members : List TarMember} {path : List Char}
    (hvfss : s.vfss = (initrdInit members).vfss) (hmembers : ∀ m ∈ members, m.filename ≠ path)
    (hvnodes : ∀ a < s.mem.bound, ∀ v ∈ s.mem.get a, v.filename ≠ path ∧ (0 < v.refCount →
      a ≠ 0 ∧ ∀ name ∈ splitAfter '/' path.tail, ¬name <:+ v.filename)) : s.Unopened path := by
  have hall : ∀ a v, s.mem.get a = some v → _ := fun a v hv => hvnodes a (s.mem.lt_bound hv) v hv
  refine ⟨fun b hroot => ?_, fun a v hv hpos => ((hall a v hv).2 hpos).2,
    fun a v hv => (hall a v hv).1, ?_⟩
  · rintro ⟨v, hv, hpos⟩
    exact not_isRoot_initrd hvfss ((hall b v hv).2 hpos).1 hroot
  · rintro f e ⟨x, dir, name, hx, hfind⟩
    rw [hvfss] at hx
    by_cases hf : f = 0
    · simp only [initrdInit, hf, if_true, some.injEq] at hx
      subst hx
      dsimp only [initrdFind] at hfind
      split at hfind
      next m hm =>
        cases hfind
        have hname : m.filename = dir ++ name := by simpa using find?_some hm
        exact hname ▸ hmembers m (mem_of_find?_eq_some hm)
      next => cases hfind
    · simp [initrdInit, hf] at hx

/-- Two files are opened, and the first one is closed. -/
theorem vnode_list_in_order_two_files : ∃ s : Fal,
    ReflTransGen (OrderlyStep .bump) (initrdInit [⟨['x'], .reg, 3⟩, ⟨['y'], .reg, 4⟩]) s ∧
      s.vnodeListHead = some 2 ∧ s.InOrder := by
  have hopen : ∀ {s t : Fal} {r : Option ℕ} (path : List Char), s.Unopened path →
      vnodeOpen .bump s path 0 0 = .ok (r, t) → OrderlyStep .bump s t := fun path hs =>
    .openVnode path 0 0 hs.closedPath.walkOk hs.seenOk
  obtain ⟨s, hrun, hhead⟩ : ∃ s : Fal,
      ReflTransGen (OrderlyStep .bump) (initrdInit [⟨['x'], .reg, 3⟩, ⟨['y'], .reg, 4⟩]) s ∧
        s.vnodeListHead = some 2 := by
    refine ⟨_, ((ReflTransGen.single (hopen ['/', 'x'] ?_ rfl)).tail
      (hopen ['/', 'y'] ?_ rfl)).tail (.closeVnode 1 ⟨_, rfl, ?_⟩ ?_ rfl), rfl⟩
    · exact unopened_initrd rfl (by decide) (by decide)
    · exact unopened_initrd rfl (by decide) (by decide)
    · decide
    · rintro v ⟨⟩ -
      exact ⟨not_isRoot_initrd rfl (by decide), rfl⟩
  exact ⟨s, hrun, hhead, vnode_list_in_order (initrdInit_sound _) (initrdInit_listed _) hrun⟩

/-- The same file is opened twice: it becomes its own predecessor. -/
theorem vnode_list_reopened : ∃ s : Fal,
    ReflTransGen (FalStep .bump) (initrdInit [⟨['x'], .reg, 3⟩]) s ∧ ¬s.InOrder := by
  obtain ⟨s, hrun, hnext, hprev, hhead⟩ : ∃ s : Fal,
      ReflTransGen (FalStep .bump) (initrdInit [⟨['x'], .reg, 3⟩]) s ∧ s.next 1 = none ∧
        s.prev 1 = some 1 ∧ s.vnodeListHead = some 1 :=
    ⟨_, (ReflTransGen.single (.openVnode ['/', 'x'] 0 0 rfl)).tail (.openVnode ['/', 'x'] 0 0 rfl),
      rfl, rfl, rfl⟩
  refine ⟨s, hrun, ?_⟩
  rintro ⟨l, hvisits, -, -, -, hinverse⟩
  have hmem : 1 ∈ l := by
    have hfirst := hvisits.head
    rw [hhead] at hfirst
    exact mem_of_head? hfirst.symm
  have hself := ((hinverse 1 hmem 1).mp hprev).2
  rw [hnext] at hself
  cases hself

end Order

end GarnOS
