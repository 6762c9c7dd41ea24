import GarnOS.Library.Chain
import GarnOS.Mem.Memutil

/-! The kernel's singly linked list `list_t`. Its spinlock is left out. -/
namespace GarnOS
open Function Chain Outcome List

structure ListNode where
  next : Option ℕ
  value : ℕ
  deriving DecidableEq, Repr

/-- `list_t` together with the nodes that are allocated. `none` is `NULL`. -/
structure ListT where
  nodes : ℕ → Option ListNode
  head : Option ℕ
  tail : Option ℕ
  nodeCount : ℕ

namespace ListT

/-- Reading through a node pointer; a node that `kmfree` took back is no longer an object. -/
def node (l : ListT) : Option ℕ → Except Fault ListNode
  | none => .error (.pageFault 0)
  | some a =>
    match l.nodes a with
    | some n => .ok n
    | none => .error (.overrun a)

def next (l : ListT) (a : ℕ) : Option ℕ := (l.nodes a).bind ListNode.next

def value (l : ListT) (a : ℕ) : Option ℕ := (l.nodes a).map ListNode.value

def setNext (l : ListT) (a : ℕ) (n : ListNode) (next : Option ℕ) : ListT :=
  { l with nodes := update l.nodes a (some { n with next }) }

end ListT

def listCreate : ListT := ⟨fun _ => none, none, none, 0⟩

def listInsert (l : ListT) (node value : ℕ) : Except Fault ListT := do
  let linked ← if l.nodeCount = 0 then pure { l with head := some node, tail := some node }
    else do
      let t ← l.node l.tail
      match l.tail with
      | none => .error (.pageFault 0)
      | some a => pure { l.setNext a t (some node) with tail := some node }
  return { linked with nodes := update linked.nodes node (some ⟨none, value⟩),
                       nodeCount := l.nodeCount + 1 }

/-- The stores that take the node `a` out, `prev` being the node before it. -/
def listUnlink (l : ListT) (prev : Option ℕ) (a : ℕ) (n : ListNode) : Except Fault ListT := do
  let head := if l.head = some a then n.next else l.head
  let tail := if l.tail = some a then prev else l.tail
  let linked ← match prev with
    | none => pure l
    | some p => do
      let m ← l.node prev
      pure (l.setNext p m n.next)
  return { nodes := update linked.nodes a none, head := head, tail := tail,
           nodeCount := l.nodeCount - 1 }

/-- The loop of `list_remove` from `node` on, giving up after `fuel` nodes. -/
def listRemoveFrom (l : ListT) (value : ℕ) : ℕ → Option ℕ → Option ℕ → Except Fault (Option ListT)
  | 0, _, _ => .error .diverges
  | _ + 1, _, none => .ok none
  | fuel + 1, prev, some a => do
    let n ← l.node (some a)
    if n.value = value then
      let l' ← listUnlink l prev a n
      return some l'
    else listRemoveFrom l value fuel (some a) n.next

/-- `none` is the return value -1, for a value that is not in the list. -/
def listRemove (l : ListT) (value : ℕ) : Except Fault (Option ListT) :=
  listRemoveFrom l value (l.nodeCount + 1) none l.head

/-- A node that a walk has stopped at. -/
structure ListFound where
  index : ℕ
  prev : Option ℕ
  node : ℕ
  data : ListNode

/-- `foreach` up to the first node whose position and value pass the test of its body. -/
def ListT.findFrom (l : ListT) (test : ℕ → ℕ → Bool) :
    ℕ → ℕ → Option ℕ → Option ℕ → Except Fault (Option ListFound)
  | 0, _, _, _ => .error .diverges
  | _ + 1, _, _, none => .ok none
  | fuel + 1, i, prev, some a => do
    let n ← l.node (some a)
    if test i n.value then return some ⟨i, prev, a, n⟩
    else findFrom l test fuel (i + 1) (some a) n.next

def ListT.find (l : ListT) (test : ℕ → ℕ → Bool) : Except Fault (Option ListFound) :=
  l.findFrom test (l.nodeCount + 1) 0 none l.head

/-- The position is counted by an `int`. -/
def ListT.indexOf (l : ListT) (value : ℕ) : Except Fault ℤ := do
  match ← l.find fun _ v => v = value with
  | some f => return int32 f.index
  | none => return -1

/-- 0 is `NULL`. -/
def ListT.get (l : ListT) (index : ℕ) : Except Fault ℕ := do
  match ← l.find fun i _ => i = index with
  | some f => return f.data.value
  | none => return 0

def ListT.unlinkFound (l : ListT) : Option ListFound → Except Fault (Option ListT)
  | none => .ok none
  | some f => do return some (← listUnlink l f.prev f.node f.data)

def ListT.removeIndex (l : ListT) (index : ℕ) : Except Fault (Option ListT) := do
  l.unlinkFound (← l.find fun i _ => i = index)

/-- The list holds the nodes and values of `xs` in order. -/
structure Holds (l : ListT) (xs : List (ℕ × ℕ)) : Prop where
  visits : Visits l.next l.head (xs.map Prod.fst)
  values : ∀ x ∈ xs, l.value x.1 = some x.2
  tail : l.tail = (xs.map Prod.fst).getLast?
  count : l.nodeCount = xs.length

section Equations
variable {l : ListT} {a v : ℕ} {m n : ListNode}

theorem ListT.node_eq_ok : l.node (some a) = .ok m ↔ l.nodes a = some m := by
  unfold ListT.node
  dsimp only
  split <;> simp_all

theorem listInsert_nil (hcount : l.nodeCount = 0) : listInsert l a v =
    .ok ⟨update l.nodes a (some ⟨none, v⟩), some a, some a, 1⟩ := by
  simp [listInsert, hcount]
  rfl

theorem listInsert_cons {t : ℕ} (hcount : l.nodeCount ≠ 0) (htail : l.tail = some t)
    (ht : l.nodes t = some m) : listInsert l a v =
      .ok ⟨update (update l.nodes t (some { m with next := some a })) a
        (some ⟨none, v⟩), l.head, some a, l.nodeCount + 1⟩ := by
  simp [listInsert, hcount, htail, ListT.node, ht, ListT.setNext]

theorem listUnlink_head : listUnlink l none a n =
    .ok ⟨update l.nodes a none, if l.head = some a then n.next else l.head,
      if l.tail = some a then none else l.tail, l.nodeCount - 1⟩ := rfl

theorem listUnlink_after {p : ℕ} (hp : l.nodes p = some m) : listUnlink l (some p) a n =
      .ok ⟨update (update l.nodes p (some { m with next := n.next })) a none,
        if l.head = some a then n.next else l.head,
        if l.tail = some a then some p else l.tail, l.nodeCount - 1⟩ := by
  simp [listUnlink, ListT.node, hp, ListT.setNext]

end Equations

section Values
variable {l l' : ListT} {a v n w : ℕ} {m : ListNode} {nodes : ℕ → Option ListNode}
  {next prev : Option ℕ}

theorem ListT.value_of_node {p : Option ℕ} (h : l.node p = .ok m) :
    ∃ a, l.value a = some m.value := by
  cases p with
  | none => cases h
  | some a => exact ⟨a, by simp [ListT.value, node_eq_ok.mp h]⟩

theorem value_update_next {p : ℕ} (hp : nodes p = some m) :
    (update nodes p (some { m with next }) n).map ListNode.value =
      (nodes n).map ListNode.value := by
  by_cases hn : n = p
  · simp [hn, hp]
  · rw [update_of_ne hn]

theorem value_of_update_none (h : (update nodes a none n).map ListNode.value = some w) :
    (nodes n).map ListNode.value = some w := by
  by_cases hn : n = a
  · simp [hn] at h
  · rwa [update_of_ne hn] at h

theorem value_of_update_some (h : (update nodes a (some ⟨next, v⟩) n).map ListNode.value = some w) :
    n = a ∧ w = v ∨ (nodes n).map ListNode.value = some w := by
  by_cases hn : n = a
  · simp [hn] at h
    exact .inl ⟨hn, h.symm⟩
  · rw [update_of_ne hn] at h
    exact .inr h

theorem listUnlink_value (h : listUnlink l prev a m = .ok l') (hv : l'.value n = some w) :
    l.value n = some w := by
  cases prev with
  | none =>
    cases listUnlink_head.symm.trans h
    exact value_of_update_none hv
  | some p =>
    cases hp : l.nodes p with
    | none => simp [listUnlink, ListT.node, hp] at h
    | some k =>
      cases (listUnlink_after hp).symm.trans h
      have hval := value_of_update_none hv
      rwa [value_update_next hp] at hval

theorem listRemoveFrom_value {fuel : ℕ} {node : Option ℕ}
    (h : listRemoveFrom l v fuel prev node = .ok (some l')) (hv : l'.value n = some w) :
    l.value n = some w := by
  induction fuel generalizing prev node with
  | zero => cases h
  | succ fuel ih =>
    cases node with
    | none => cases h
    | some a =>
      obtain ⟨m, -, h⟩ := bind_eq_ok.mp h
      split_ifs at h
      · obtain ⟨l1, hl1, h⟩ := bind_eq_ok.mp h
        cases h
        exact listUnlink_value hl1 hv
      · exact ih h

theorem listRemove_value (h : listRemove l v = .ok (some l')) (hv : l'.value n = some w) :
    l.value n = some w := listRemoveFrom_value h hv

theorem listInsert_value (h : listInsert l a v = .ok l') (hv : l'.value n = some w) :
    n = a ∧ w = v ∨ l.value n = some w := by
  by_cases hcount : l.nodeCount = 0
  · cases (listInsert_nil hcount).symm.trans h
    exact value_of_update_some hv
  · cases htail : l.tail with
    | none => simp [listInsert, hcount, htail, ListT.node] at h
    | some t =>
      cases ht : l.nodes t with
      | none => simp [listInsert, hcount, htail, ListT.node, ht] at h
      | some m =>
        cases (listInsert_cons hcount htail ht).symm.trans h
        have hval := value_of_update_some hv
        rwa [value_update_next ht] at hval

end Values

section Specs
variable {l : ListT} {xs pre post : List (ℕ × ℕ)} {a v : ℕ}

theorem holds_listCreate : Holds listCreate [] := ⟨rfl, by simp, rfl, rfl⟩

theorem Holds.nodup (h : Holds l xs) : (xs.map Prod.fst).Nodup := h.visits.nodup

theorem Holds.node_eq (h : Holds l (pre ++ (a, v) :: post)) :
    l.nodes a = some ⟨(post.map Prod.fst).head?, v⟩ := by
  obtain ⟨n, hnode, hvalue⟩ := Option.map_eq_some_iff.mp (h.values (a, v) (by simp))
  have hvisits := h.visits
  rw [map_append, map_cons] at hvisits
  have hnext := hvisits.next_eq
  unfold ListT.next at hnext
  rw [hnode, Option.bind_some] at hnext
  have hv : n.value = v := hvalue
  rw [hnode, ← hnext, ← hv]

theorem Holds.deref (h : Holds l (pre ++ (a, v) :: post)) :
    l.node (some a) = .ok ⟨(post.map Prod.fst).head?, v⟩ := by
  simp [ListT.node, h.node_eq]

theorem Holds.notMem (h : Holds l xs) (ha : l.nodes a = none) : a ∉ xs.map Prod.fst := by
  intro hmem
  obtain ⟨x, hx, rfl⟩ := mem_map.mp hmem
  have hvalue := h.values x hx
  rw [ListT.value, ha] at hvalue
  cases hvalue

theorem Holds.insert (h : Holds l xs) (ha : l.nodes a = none) (v : ℕ) :
    ∃ l', listInsert l a v = .ok l' ∧ Holds l' (xs ++ [(a, v)]) := by
  have hnot := h.notMem ha
  rcases eq_nil_or_concat' xs with rfl | ⟨ys, ⟨t, w⟩, rfl⟩
  · refine ⟨_, listInsert_nil h.count, ?_, ?_, rfl, rfl⟩
    · simp [ListT.next]
    · simp [ListT.value]
  · have hcount : l.nodeCount ≠ 0 := by
      rw [h.count]
      simp
    have htail : l.tail = some t := by
      rw [h.tail]
      simp
    refine ⟨_, listInsert_cons hcount htail h.node_eq, ?_, ?_, ?_, ?_⟩
    · have hvisits := h.visits
      rw [map_append, map_append, map_singleton, map_singleton, append_assoc] at *
      have hta : t ≠ a := fun heq => hnot (by simp [heq])
      refine hvisits.cut (fun x hx => ?_) (by simp [ListT.next, hta]) (by simp [ListT.next])
      have hxt : x ≠ t := fun heq => disjoint_of_nodup_append hvisits.nodup hx (by simp [heq])
      have hxa : x ≠ a := fun heq => hnot (by simp [← heq, hx])
      simp [ListT.next, hxt, hxa]
    · have hold : ∀ x ∈ ys ++ [(t, w)], x.1 ≠ a ∧ l.value x.1 = some x.2 := fun x hx =>
        ⟨fun heq => hnot (heq ▸ mem_map_of_mem hx), h.values x hx⟩
      have ht : l.value t = some w := (hold (t, w) (by simp)).2
      refine forall_mem_append.mpr ⟨fun x hx => ?_, by simp [ListT.value]⟩
      obtain ⟨hxa, hx⟩ := hold x hx
      rw [← hx]
      simp only [ListT.value, update_of_ne hxa, update_apply]
      split_ifs with hxt
      · rw [hxt]
        exact ht.symm
      · rfl
    · simp
    · simp [h.count]

section Unlink
variable {l' : ListT}

theorem Holds.removed (h : Holds l (pre ++ (a, v) :: post))
    (hvalue : ∀ x ≠ a, l'.value x = l.value x)
    (hkeep : ∀ x ≠ a, x ∉ (pre.map Prod.fst).getLast? → l'.next x = l.next x)
    (hlast : ∀ x ∈ (pre.map Prod.fst).getLast?, l'.next x = l.next a)
    (hhead : l'.head = if l.head = some a then l.next a else l.head)
    (htail : l'.tail = if l.tail = some a then (pre.map Prod.fst).getLast? else l.tail)
    (hcount : l'.nodeCount = l.nodeCount - 1) : Holds l' (pre ++ post) := by
  have hvisits := h.visits
  rw [map_append, map_cons] at hvisits
  have hne : ∀ x ∈ pre.map Prod.fst ++ post.map Prod.fst, x ≠ a := fun x hx heq =>
    (nodup_cons.mp (nodup_middle.mp hvisits.nodup)).1 (heq ▸ hx)
  constructor
  · have hrem := hvisits.remove (fun x hx => hkeep x (hne x hx)) hlast
    rw [map_append, hhead, hvisits.head_remove]
    exact hrem
  · intro x hx
    have hxa : x.1 ≠ a := hne x.1 (by rw [← map_append]; exact mem_map_of_mem hx)
    rw [hvalue x.1 hxa]
    exact h.values x (perm_middle.mem_iff.mpr (mem_cons_of_mem _ hx))
  · have hl := h.tail
    rw [map_append, map_cons] at hl
    rw [htail, hl, map_append, getLast?_remove hvisits.nodup]
  · rw [hcount, h.count]
    simp

theorem Holds.unlink (h : Holds l (pre ++ (a, v) :: post)) :
    ∃ l', listUnlink l (pre.map Prod.fst).getLast? a ⟨(post.map Prod.fst).head?, v⟩ = .ok l' ∧
      Holds l' (pre ++ post) ∧ l'.nodes a = none := by
  have hnext : l.next a = (post.map Prod.fst).head? := by
    simp [ListT.next, h.node_eq]
  rw [← hnext]
  rcases eq_nil_or_concat' pre with rfl | ⟨ys, ⟨p, w⟩, rfl⟩
  · refine ⟨_, listUnlink_head, ?_, by simp⟩
    apply h.removed
    · intro x hx
      simp [ListT.value, hx]
    · intro x hx _
      simp [ListT.next, hx]
    · simp
    all_goals rfl
  · have hsplit : Holds l (ys ++ (p, w) :: (a, v) :: post) := by simpa using h
    have hpa : p ≠ a := by
      have hnodup := hsplit.nodup
      rw [map_append, nodup_append] at hnodup
      have hcons := (nodup_cons.mp hnodup.2.1).1
      intro heq
      exact hcons (by simp [heq])
    have hlastp : ((ys ++ [(p, w)]).map Prod.fst).getLast? = some p := by simp
    rw [hlastp]
    refine ⟨_, listUnlink_after hsplit.node_eq, ?_, by simp⟩
    apply h.removed
    · intro x hx
      simp only [ListT.value, update_of_ne hx, update_apply]
      split_ifs with hxp
      · rw [hxp, hsplit.node_eq]
        rfl
      · rfl
    · intro x hx hxp
      rw [hlastp, Option.mem_some_iff] at hxp
      simp [ListT.next, hx, update_of_ne (Ne.symm hxp)]
    · intro x hx
      rw [hlastp, Option.mem_some_iff] at hx
      subst hx
      simp [ListT.next, hpa]
    · rfl
    · rw [hlastp]
    · rfl

end Unlink

section Find
variable {test : ℕ → ℕ → Bool} {zs rest : List (ℕ × ℕ)} {fuel : ℕ}

theorem Holds.find_skip (h : Holds l (zs ++ (pre ++ rest)))
    (hpre : ∀ j x, pre[j]? = some x → test (zs.length + j) x.2 = false) :
    l.findFrom test (pre.length + fuel) zs.length (zs.map Prod.fst).getLast?
        ((pre ++ rest).map Prod.fst).head? =
      l.findFrom test fuel (zs.length + pre.length) ((zs ++ pre).map Prod.fst).getLast?
        (rest.map Prod.fst).head? := by
  induction pre generalizing zs with
  | nil => simp
  | cons y pre ih =>
    have hstep : Holds l ((zs ++ [y]) ++ (pre ++ rest)) := by simpa using h
    have hrest := ih hstep fun j x hx => by
      rw [length_append, length_singleton, Nat.add_assoc, Nat.add_comm 1]
      exact hpre (j + 1) x hx
    have hy : test zs.length y.2 = false := hpre 0 y rfl
    rw [cons_append] at h
    rw [length_cons, Nat.add_right_comm, cons_append, map_cons, head?_cons,
      ListT.findFrom, h.deref, ok_bind, hy]
    simpa [Nat.add_assoc, Nat.add_comm 1] using hrest

theorem Holds.find_some (h : Holds l (pre ++ (a, v) :: post))
    (hpre : ∀ j x, pre[j]? = some x → test j x.2 = false) (hv : test pre.length v = true) :
    l.find test = .ok (some ⟨pre.length, (pre.map Prod.fst).getLast?, a,
      ⟨(post.map Prod.fst).head?, v⟩⟩) := by
  have hskip := @Holds.find_skip l pre test [] _ (post.length + 2) h (by simpa using hpre)
  have hcount : l.nodeCount + 1 = pre.length + (post.length + 2) := by
    rw [h.count, length_append, length_cons]
    omega
  rw [ListT.find, hcount, h.visits.head]
  refine hskip.trans ?_
  simp [ListT.findFrom, h.deref, hv, pure, Except.pure]

theorem Holds.find_none (h : Holds l xs) (hxs : ∀ j x, xs[j]? = some x → test j x.2 = false) :
    l.find test = .ok none := by
  have hskip := @Holds.find_skip l xs test [] [] 1 (by simpa using h)
    (by simpa using hxs)
  rw [ListT.find, h.count, h.visits.head]
  simpa [ListT.findFrom] using hskip

theorem Holds.unlink_found (h : Holds l (pre ++ (a, v) :: post))
    (hfind : l.find test = .ok (some ⟨pre.length, (pre.map Prod.fst).getLast?, a,
      ⟨(post.map Prod.fst).head?, v⟩⟩)) :
    ∃ l', (l.find test >>= l.unlinkFound) = .ok (some l') ∧ Holds l' (pre ++ post) ∧
      l'.nodes a = none := by
  obtain ⟨l', hcall, hrest⟩ := h.unlink
  refine ⟨l', ?_, hrest⟩
  rw [hfind, ok_bind, ListT.unlinkFound, hcall]
  rfl

theorem listRemoveFrom_eq {prev node : Option ℕ} (i : ℕ) : listRemoveFrom l v fuel prev node =
    l.findFrom (fun _ w => w = v) fuel i prev node >>= l.unlinkFound := by
  induction fuel generalizing i prev node with
  | zero => rfl
  | succ fuel ih =>
    cases node with
    | none => rfl
    | some a =>
      rw [listRemoveFrom, ListT.findFrom, bind_assoc]
      congr 1
      funext n
      by_cases hn : n.value = v
      · simp [hn, ListT.unlinkFound]
      · simp [hn, ih (i + 1)]

end Find

theorem Holds.remove (h : Holds l (pre ++ (a, v) :: post)) (hpre : ∀ x ∈ pre, x.2 ≠ v) :
    ∃ l', listRemove l v = .ok (some l') ∧ Holds l' (pre ++ post) ∧ l'.nodes a = none := by
  rw [listRemove, listRemoveFrom_eq 0]
  apply h.unlink_found
  exact h.find_some (fun j x hx => decide_eq_false (hpre x (mem_of_getElem? hx))) (by simp)

theorem Holds.remove_absent (h : Holds l xs) (hxs : ∀ x ∈ xs, x.2 ≠ v) :
    listRemove l v = .ok none := by
  have hfind := @Holds.find_none l xs (fun _ w => w = v) h fun j x hx =>
    decide_eq_false (hxs x (mem_of_getElem? hx))
  rw [listRemove, listRemoveFrom_eq 0]
  exact congrArg (· >>= l.unlinkFound) hfind

end Specs

/-- A call on a list. The node of an insertion is the one that `kmalloc` returns. -/
inductive ListOp where
  | insert (node value : ℕ)
  | remove (value : ℕ)
  | removeIndex (index : ℕ)
  | get (index : ℕ)
  | indexOf (value : ℕ)

open ListOp

inductive ListResult where
  | void
  | int (z : ℤ)
  | pointer (p : ℕ)
  deriving DecidableEq

def ListT.removed (l : ListT) : Option ListT → ListT × ListResult
  | some l' => (l', .int 0)
  | none => (l, .int (-1))

def ListT.call (l : ListT) : ListOp → Except Fault (ListT × ListResult)
  | .insert node value => do return (← listInsert l node value, .void)
  | .remove value => do return l.removed (← listRemove l value)
  | .removeIndex index => do return l.removed (← l.removeIndex index)
  | .get index => do return (l, .pointer (← l.get index))
  | .indexOf value => do return (l, .int (← l.indexOf value))

/-- The same call on a sequence of values. -/
def ListOp.onSequence (vs : List ℕ) : ListOp → List ℕ × ListResult
  | insert _ value => (vs ++ [value], .void)
  | remove value => (vs.erase value, .int (if value ∈ vs then 0 else -1))
  | removeIndex index => (vs.eraseIdx index, .int (if index < vs.length then 0 else -1))
  | get index => (vs, .pointer (vs.getD index 0))
  | indexOf value => (vs, .int (if value ∈ vs then vs.idxOf value else -1))

/-- `kmalloc` never returns a node that is in use. -/
def ListOp.Fresh (l : ListT) : ListOp → Prop
  | insert node _ => l.nodes node = none
  | _ => True

/-- The lists that calls can produce, with the sequences that the calls describe. -/
inductive ListReached : ListT → List ℕ → Prop
  | create : ListReached listCreate []
  | call {l l' : ListT} {vs : List ℕ} {op : ListOp} {r : ListResult} (h : ListReached l vs)
      (hfresh : op.Fresh l) (hcall : l.call op = .ok (l', r)) :
      ListReached l' (op.onSequence vs).1

/-- The position that the call returns fits in an `int`. -/
def ListOp.IndexFits (vs : List ℕ) : ListOp → Prop
  | indexOf value => value ∈ vs → vs.idxOf value < 2 ^ 31
  | _ => True

/-- The chain of nodes from the head is finite and carries the sequence. -/
def ListT.Carries (l : ListT) (vs : List ℕ) : Prop :=
  ∃ nodes, Visits l.next l.head nodes ∧ nodes.Nodup ∧ nodes.map l.value = vs.map some ∧
    l.tail = nodes.getLast? ∧ l.nodeCount = vs.length

section Sequence
variable {l : ListT} {xs : List (ℕ × ℕ)} {vs : List ℕ} {op : ListOp}

theorem Holds.carries (h : Holds l xs) : l.Carries (xs.map Prod.snd) := by
  refine ⟨_, h.visits, h.nodup, ?_, h.tail, by rw [h.count, length_map]⟩
  rw [map_map, map_map]
  exact map_congr_left h.values

variable {v i : ℕ}

theorem split_value (h : v ∈ xs.map Prod.snd) :
    ∃ pre a post, xs = pre ++ (a, v) :: post ∧ ∀ x ∈ pre, x.2 ≠ v := by
  obtain ⟨s, t, heq, hs⟩ := eq_append_cons_of_mem h
  obtain ⟨pre, rest, rfl, rfl, hrest⟩ := map_eq_append_iff.mp heq
  obtain ⟨⟨a, w⟩, post, rfl, rfl, -⟩ := map_eq_cons_iff.mp hrest
  exact ⟨pre, a, post, rfl, fun x hx hxv => hs (mem_map.mpr ⟨x, hx, hxv⟩)⟩

theorem split_index (h : i < xs.length) :
    ∃ pre a v post, xs = pre ++ (a, v) :: post ∧ pre.length = i :=
  ⟨xs.take i, xs[i].1, xs[i].2, xs.drop (i + 1), by simp, length_take_of_le h.le⟩

theorem Holds.find_index {pre post : List (ℕ × ℕ)} {a : ℕ} (h : Holds l (pre ++ (a, v) :: post)) :
    l.find (fun i _ => i = pre.length) =
      .ok (some ⟨pre.length, (pre.map Prod.fst).getLast?, a, ⟨(post.map Prod.fst).head?, v⟩⟩) := by
  refine h.find_some (fun j x hx => ?_) (by simp)
  have hj := (List.getElem?_eq_some_iff.mp hx).1
  exact decide_eq_false (by omega)

theorem Holds.find_past (h : Holds l xs) (hi : ¬i < xs.length) :
    l.find (fun j _ => j = i) = .ok none := by
  refine h.find_none fun j x hx => ?_
  have hj := (List.getElem?_eq_some_iff.mp hx).1
  exact decide_eq_false (by omega)

theorem Holds.indexOf_eq (h : Holds l xs) (hv : v ∈ xs.map Prod.snd) :
    l.indexOf v = .ok (int32 ((xs.map Prod.snd).idxOf v)) := by
  obtain ⟨pre, a, post, rfl, hpre⟩ := split_value hv
  have hnot : v ∉ pre.map Prod.snd := by simpa using fun a ha => hpre (a, v) ha
  have hindex : ((pre ++ (a, v) :: post).map Prod.snd).idxOf v = pre.length := by
    simp [idxOf_append_of_notMem hnot]
  rw [hindex, ListT.indexOf, h.find_some (fun j x hx =>
    decide_eq_false (hpre x (mem_of_getElem? hx))) (by simp)]
  rfl

/-- One call does what it does on the sequence, apart from the `int` that it returns. -/
theorem Holds.call (h : Holds l xs) (hfresh : op.Fresh l) :
    ∃ l' r xs', l.call op = .ok (l', r) ∧ Holds l' xs' ∧
      xs'.map Prod.snd = (op.onSequence (xs.map Prod.snd)).1 ∧
      (r = (op.onSequence (xs.map Prod.snd)).2 ↔ op.IndexFits (xs.map Prod.snd)) := by
  cases op with
  | insert node v =>
    obtain ⟨l', hcall, hholds⟩ := h.insert hfresh v
    refine ⟨l', .void, _, ?_, hholds, map_append, iff_of_true rfl trivial⟩
    rw [ListT.call, hcall]
    rfl
  | remove v =>
    by_cases hv : v ∈ xs.map Prod.snd
    · obtain ⟨pre, a, post, rfl, hpre⟩ := split_value hv
      obtain ⟨l', hcall, hholds, -⟩ := h.remove hpre
      refine ⟨l', .int 0, _, ?_, hholds, ?_, iff_of_true ?_ trivial⟩
      · rw [ListT.call, hcall]
        rfl
      · have hnot : v ∉ pre.map Prod.snd := by simpa using fun a ha => hpre (a, v) ha
        simp [onSequence, erase_append_right _ hnot]
      · rw [onSequence, if_pos hv]
    · have habsent := h.remove_absent fun x hx hxv => hv (mem_map.mpr ⟨x, hx, hxv⟩)
      refine ⟨l, .int (-1), xs, ?_, h, (erase_of_not_mem hv).symm, iff_of_true ?_ trivial⟩
      · rw [ListT.call, habsent]
        rfl
      · rw [onSequence, if_neg hv]
  | removeIndex i =>
    by_cases hi : i < xs.length
    · obtain ⟨pre, a, v, post, rfl, rfl⟩ := split_index hi
      obtain ⟨l', hcall, hholds, -⟩ := h.unlink_found h.find_index
      refine ⟨l', .int 0, _, ?_, hholds, ?_, iff_of_true ?_ trivial⟩
      · rw [ListT.call, ListT.removeIndex, hcall]
        rfl
      · simp [onSequence, eraseIdx_append_of_length_le]
      · rw [onSequence, if_pos (by simp)]
    · refine ⟨l, .int (-1), xs, ?_, h, ?_, iff_of_true ?_ trivial⟩
      · rw [ListT.call, ListT.removeIndex, h.find_past hi]
        rfl
      · exact (eraseIdx_of_length_le (by simpa using hi)).symm
      · rw [onSequence, if_neg (by simpa using hi)]
  | get i =>
    refine ⟨l, .pointer ((xs.map Prod.snd).getD i 0), xs, ?_, h, rfl, iff_of_true rfl trivial⟩
    by_cases hi : i < xs.length
    · obtain ⟨pre, a, v, post, rfl, rfl⟩ := split_index hi
      rw [ListT.call, ListT.get, h.find_index]
      simp [pure, Except.pure]
    · rw [ListT.call, ListT.get, h.find_past hi]
      simp [getElem?_eq_none (Nat.le_of_not_lt hi), pure, Except.pure]
  | indexOf v =>
    by_cases hv : v ∈ xs.map Prod.snd
    · refine ⟨l, .int (int32 ((xs.map Prod.snd).idxOf v)), xs, ?_, h, rfl, ?_⟩
      · rw [ListT.call, h.indexOf_eq hv]
        rfl
      · rw [onSequence, if_pos hv, ListResult.int.injEq, ListOp.IndexFits, int32_eq_iff]
        exact ⟨fun hlt _ => hlt, fun hlt => hlt hv⟩
    · have habsent : l.indexOf v = .ok (-1) := by
        rw [ListT.indexOf, h.find_none fun j x hx => decide_eq_false fun hxv =>
          hv (mem_map.mpr ⟨x, mem_of_getElem? hx, hxv⟩)]
        rfl
      refine ⟨l, .int (-1), xs, ?_, h, rfl, iff_of_true ?_ fun hmem => absurd hmem hv⟩
      · rw [ListT.call, habsent]
        rfl
      · rw [onSequence, if_neg hv]

theorem ListReached.holds (h : ListReached l vs) : ∃ xs, Holds l xs ∧ xs.map Prod.snd = vs := by
  induction h with
  | create => exact ⟨[], holds_listCreate, rfl⟩
  | call _ hfresh hcall ih =>
    obtain ⟨xs, hholds, rfl⟩ := ih
    obtain ⟨l', r, xs', hcall', hholds', hxs', -⟩ := hholds.call hfresh
    cases hcall.symm.trans hcall'
    exact ⟨xs', hholds', hxs'⟩

end Sequence

/-- Every call on a list that calls have built returns and does what it does on the sequence of the
values; its result is the one of the sequence as long as `list_index_of` can count that far. -/
theorem list_refines_sequence (l : ListT) (vs : List ℕ) (h : ListReached l vs) :
    l.Carries vs ∧ ∀ op : ListOp, op.Fresh l → ∃ l' r, l.call op = .ok (l', r) ∧
      l'.Carries (op.onSequence vs).1 ∧ (r = (op.onSequence vs).2 ↔ op.IndexFits vs) := by
  obtain ⟨xs, hholds, rfl⟩ := h.holds
  refine ⟨hholds.carries, fun op hfresh => ?_⟩
  obtain ⟨l', r, xs', hcall, hholds', hxs', hresult⟩ := hholds.call hfresh
  exact ⟨l', r, hcall, hxs' ▸ hholds'.carries, hresult⟩

theorem list_refines_sequence_two : ∃ l, ListReached l [7, 9] ∧ l.Carries [7, 9] ∧
    ∃ l' r, l.call (.indexOf 9) = .ok (l', r) ∧ (r = .int 1 ↔ 1 < 2 ^ 31) := by
  have hone := @ListReached.call _ _ _ (.insert 1 7) _ .create rfl rfl
  have htwo := @ListReached.call _ _ _ (.insert 2 9) _ hone rfl rfl
  obtain ⟨hcarries, hcalls⟩ := list_refines_sequence _ _ htwo
  obtain ⟨l', r, hcall, -, hresult⟩ := hcalls (.indexOf 9) trivial
  exact ⟨_, htwo, hcarries, l', r, hcall, hresult.trans ⟨fun h => h (by decide), fun h _ => h⟩⟩

theorem exists_reached (vs : List ℕ) :
    ∃ l, ListReached l vs ∧ ∀ a ≥ vs.length, l.nodes a = none := by
  induction vs using reverseRecOn with
  | nil => exact ⟨listCreate, .create, fun _ _ => rfl⟩
  | append_singleton vs v ih =>
    obtain ⟨l, hreached, hfree⟩ := ih
    obtain ⟨xs, hholds, -⟩ := hreached.holds
    obtain ⟨l', hinsert, -⟩ := hholds.insert (hfree _ le_rfl) v
    have hcall : l.call (.insert vs.length v) = .ok (l', .void) := by
      rw [ListT.call, hinsert]
      rfl
    refine ⟨l', @ListReached.call _ _ _ (.insert _ v) _ hreached (hfree _ le_rfl) hcall,
      fun a ha => ?_⟩
    rw [length_append, length_singleton] at ha
    cases hnode : l'.nodes a with
    | none => rfl
    | some n =>
      have hvalue : l'.value a = some n.value := by simp [ListT.value, hnode]
      rcases listInsert_value hinsert hvalue with ⟨rfl, -⟩ | hold
      · omega
      · simp [ListT.value, hfree a (by omega)] at hold

theorem indexOf_after_zeros (n : ℕ) : ∃ l vs, ListReached l vs ∧ 1 ∈ vs ∧ vs.idxOf 1 = n ∧
    l.call (.indexOf 1) = .ok (l, .int (int32 n)) := by
  obtain ⟨l, hreached, -⟩ := exists_reached (replicate n 0 ++ [1])
  obtain ⟨xs, hholds, hxs⟩ := hreached.holds
  have hnot : 1 ∉ replicate n 0 := by simp [mem_replicate]
  have hindex : (replicate n 0 ++ [1]).idxOf 1 = n := by
    simp [idxOf_append_of_notMem hnot]
  refine ⟨l, _, hreached, by simp, hindex, ?_⟩
  rw [ListT.call, hholds.indexOf_eq (by simp [hxs]), hxs, hindex]
  rfl

/-- The first position of 1 after `2 ^ 31` zeros comes back negative. -/
theorem list_index_wraps : ∃ l vs, ListReached l vs ∧ 1 ∈ vs ∧ vs.idxOf 1 = 2 ^ 31 ∧
    l.call (.indexOf 1) = .ok (l, .int (-2 ^ 31)) :=
  indexOf_after_zeros (2 ^ 31)

end GarnOS
