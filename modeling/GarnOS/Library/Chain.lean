import Mathlib.Tactic

/-! Linked lists: what following a link field visits, and how the usual stores change it. -/
namespace Chain
open List
variable {α : Type*}

/-- Following `next` from `h` visits the nodes of `l` in order and ends. -/
def Visits (next : α → Option α) : Option α → List α → Prop
  | h, [] => h = none
  | h, a :: l => h = some a ∧ Visits next (next a) l

structure Linked (next prev : α → Option α) (head tail : Option α) (l : List α) : Prop where
  forward : Visits next head l
  backward : Visits prev tail l.reverse

section Visits
variable {next next' : α → Option α} {h : Option α} {a b x : α} {l p q : List α}

instance instDecidableVisits [DecidableEq α] : ∀ h l, Decidable (Visits next h l)
  | h, [] => inferInstanceAs (Decidable (h = none))
  | h, a :: l =>
    have := instDecidableVisits (next a) l
    inferInstanceAs (Decidable (h = some a ∧ Visits next (next a) l))

@[simp] theorem visits_nil : Visits next h [] ↔ h = none := Iff.rfl

@[simp] theorem visits_cons : Visits next h (a :: l) ↔
    h = some a ∧ Visits next (next a) l := Iff.rfl

theorem Visits.head (hv : Visits next h l) : h = l.head? := by
  cases l with
  | nil => exact hv
  | cons a l => exact hv.1

theorem Visits.unique (hp : Visits next h p) (hq : Visits next h q) : p = q := by
  induction p generalizing h q with
  | nil =>
    cases q with
    | nil => rfl
    | cons b q => simp [visits_nil.mp hp] at hq
  | cons a p ih =>
    cases q with
    | nil => simp [visits_nil.mp hq] at hp
    | cons b q =>
      obtain ⟨rfl, hp⟩ := hp
      obtain ⟨hab, hq⟩ := hq
      cases hab
      rw [ih hp hq]

theorem Visits.congr (hv : Visits next h l) (heq : ∀ a ∈ l, next' a = next a) :
    Visits next' h l := by
  induction l generalizing h with
  | nil => exact hv
  | cons a l ih =>
    refine ⟨hv.1, ?_⟩
    rw [heq a (by simp)]
    exact ih hv.2 fun b hb => heq b (mem_cons_of_mem _ hb)

theorem visits_iff : Visits next h l ↔
    h = l.head? ∧ ∀ p a q, l = p ++ a :: q → next a = q.head? := by
  induction l generalizing h with
  | nil => simp
  | cons b l ih =>
    rw [visits_cons, ih, head?_cons]
    refine and_congr_right fun _ => ⟨fun ⟨hhead, hrest⟩ p a q hsplit => ?_, fun hall => ⟨?_, ?_⟩⟩
    · cases p with
      | nil =>
        obtain ⟨rfl, rfl⟩ := cons.inj hsplit
        exact hhead
      | cons c p => exact hrest p a q (cons.inj hsplit).2
    · exact hall [] b l rfl
    · intro p a q hsplit
      exact hall (b :: p) a q (by rw [hsplit]; rfl)

theorem Visits.next_eq (hv : Visits next h (p ++ a :: q)) : next a = q.head? :=
  (visits_iff.mp hv).2 p a q rfl

theorem Visits.drop (hv : Visits next h (p ++ q)) : Visits next q.head? q := by
  induction p generalizing h with
  | nil =>
    rw [nil_append] at hv
    rw [← hv.head]
    exact hv
  | cons a p ih => exact ih hv.2

theorem Visits.reachable (hv : Visits next (some a) l) (hb : b ∈ l) :
    Relation.ReflTransGen (fun x y => next x = some y) a b := by
  induction l generalizing a with
  | nil => cases hb
  | cons c l ih =>
    obtain ⟨hac, hrest⟩ := hv
    obtain rfl := Option.some.inj hac
    obtain rfl | hb := mem_cons.mp hb
    · exact .refl
    · cases hnext : next a with
      | none =>
        rw [hrest.head, head?_eq_none_iff] at hnext
        rw [hnext] at hb
        cases hb
      | some d =>
        rw [hnext] at hrest
        exact .head hnext (ih hrest hb)

theorem Visits.cut (hv : Visits next h (p ++ b :: q)) (hkeep : ∀ a ∈ p, next' a = next a)
    (hb : next' b = some x) (hx : next' x = none) : Visits next' h (p ++ [b, x]) := by
  induction p generalizing h with
  | nil => exact ⟨hv.1, hb, hx⟩
  | cons c p ih =>
    refine ⟨hv.1, ?_⟩
    rw [hkeep c (by simp)]
    exact ih hv.2 fun a ha => hkeep a (mem_cons_of_mem _ ha)

theorem Visits.nodup (hv : Visits next h l) : l.Nodup := by
  induction l generalizing h with
  | nil => exact nodup_nil
  | cons a l ih =>
    refine nodup_cons.mpr ⟨fun hmem => ?_, ih hv.2⟩
    obtain ⟨q, r, rfl⟩ := append_of_mem hmem
    obtain ⟨rfl, hrest⟩ := hv
    have hagain : Visits next (some a) (a :: r) := hrest.drop
    have hwhole : Visits next (some a) (a :: (q ++ a :: r)) := ⟨rfl, hrest⟩
    have hlen := congrArg length (hagain.unique hwhole)
    simp at hlen
    omega

theorem Visits.remove (hv : Visits next h (p ++ b :: q))
    (hkeep : ∀ a ∈ p ++ q, a ∉ p.getLast? → next' a = next a)
    (hlast : ∀ a ∈ p.getLast?, next' a = next b) :
    Visits next' (if p = [] then next b else h) (p ++ q) := by
  have hq : Visits next (next b) q := by
    have hdrop : Visits next (some b) (b :: q) := hv.drop
    exact hdrop.2
  have hq' : Visits next' (next b) q := by
    apply hq.congr
    intro a ha
    refine hkeep a (by simp [ha]) fun hmem => ?_
    have hp : a ∈ p := mem_of_getLast? hmem
    exact (disjoint_of_nodup_append hv.nodup) hp (by simp [ha])
  induction p generalizing h with
  | nil => simpa using hq'
  | cons c p ih =>
    have hne : (c :: p) ≠ [] := by simp
    rw [if_neg hne]
    refine ⟨hv.1, ?_⟩
    cases p with
    | nil =>
      rw [hlast c (by simp)]
      exact hq'
    | cons d p =>
      have hc : next' c = next c := by
        refine hkeep c (by simp) fun hmem => ?_
        rw [getLast?_cons_cons] at hmem
        have hmem := mem_of_getLast? hmem
        have hnot := (nodup_cons.mp hv.nodup).1
        exact hnot (mem_append_left _ hmem)
      rw [hc]
      have hrest := ih hv.2 (fun a ha hnot => hkeep a (by simp_all) hnot) hlast
      rwa [if_neg (by simp)] at hrest

theorem Visits.head_remove [DecidableEq α] (hv : Visits next h (p ++ b :: q)) :
    (if h = some b then next b else h) = if p = [] then next b else h := by
  rw [hv.head]
  cases p with
  | nil => simp
  | cons c p =>
    have hcb : c ≠ b := fun heq => (nodup_cons.mp hv.nodup).1 (by simp [heq])
    simp [hcb]

theorem getLast?_remove [DecidableEq α] (hnodup : (p ++ b :: q).Nodup) :
    (if (p ++ b :: q).getLast? = some b then p.getLast? else (p ++ b :: q).getLast?) =
      (p ++ q).getLast? := by
  rcases eq_nil_or_concat' q with rfl | ⟨zs, z, rfl⟩
  · simp
  · have hzb : z ≠ b := by
      rw [nodup_append, nodup_cons] at hnodup
      exact fun heq => hnodup.2.1.1 (by simp [heq])
    have hlast : (b :: (zs ++ [z])).getLast? = some z := by
      rw [← cons_append]
      exact getLast?_concat
    simp [hlast, hzb]

theorem Visits.snoc (hv : Visits next h l)
    (hkeep : ∀ a ∈ l, a ∉ l.getLast? → next' a = next a)
    (hlast : ∀ a ∈ l.getLast?, next' a = some x) (hx : next' x = none) :
    Visits next' (if l = [] then some x else h) (l ++ [x]) := by
  induction l generalizing h with
  | nil => exact ⟨rfl, hx⟩
  | cons c l ih =>
    rw [if_neg (by simp)]
    refine ⟨hv.1, ?_⟩
    cases l with
    | nil => exact ⟨hlast c (by simp), hx⟩
    | cons d l =>
      have hc : next' c = next c := by
        refine hkeep c (by simp) fun hmem => ?_
        rw [getLast?_cons_cons] at hmem
        exact (nodup_cons.mp hv.nodup).1 (mem_of_getLast? hmem)
      rw [hc]
      have hrest := ih hv.2 (fun a ha hnot => hkeep a (mem_cons_of_mem _ ha) hnot) hlast
      rwa [if_neg (by simp)] at hrest

end Visits

section Linked
variable {next next' prev prev' : α → Option α} {head tail : Option α} {a b x : α} {l p q : List α}

section
variable (hl : Linked next prev head tail l)
include hl

theorem Linked.tail_eq : tail = l.getLast? := by
  rw [hl.backward.head, head?_reverse]

theorem Linked.nodup : l.Nodup := hl.forward.nodup

theorem Linked.congr (hnext : ∀ a ∈ l, next' a = next a) (hprev : ∀ a ∈ l, prev' a = prev a) :
    Linked next' prev' head tail l :=
  ⟨hl.forward.congr hnext, hl.backward.congr fun a ha => hprev a (mem_reverse.mp ha)⟩

end

section
variable (hl : Linked next prev head tail (p ++ a :: q))
include hl

theorem Linked.prev_eq : prev a = p.getLast? := by
  have hback := hl.backward
  rw [reverse_append, reverse_cons, append_assoc, singleton_append] at hback
  rw [hback.next_eq, head?_reverse]

theorem Linked.next_ne_self : next a ≠ some a := by
  have ha : a ∉ p ++ q := (nodup_cons.mp (nodup_middle.mp hl.nodup)).1
  rw [hl.forward.next_eq]
  exact fun h => ha (mem_append_right _ (mem_of_head? h))

theorem Linked.prev_ne_self : prev a ≠ some a := by
  have ha : a ∉ p ++ q := (nodup_cons.mp (nodup_middle.mp hl.nodup)).1
  rw [hl.prev_eq]
  exact fun h => ha (mem_append_left _ (mem_of_getLast? h))

end

theorem Linked.inverse (hl : Linked next prev head tail l) (ha : a ∈ l) (hb : b ∈ l) :
    next a = some b ↔ prev b = some a := by
  constructor
  · intro hab
    obtain ⟨p, q, rfl⟩ := append_of_mem ha
    rw [hl.forward.next_eq] at hab
    obtain ⟨r, rfl⟩ : ∃ r, q = b :: r := ⟨q.tail, (cons_head?_tail hab).symm⟩
    have hl' : Linked next prev head tail ((p ++ [a]) ++ b :: r) := by simpa using hl
    rw [hl'.prev_eq, getLast?_concat]
  · intro hba
    obtain ⟨p, q, rfl⟩ := append_of_mem hb
    rw [hl.prev_eq] at hba
    obtain ⟨r, rfl⟩ := getLast?_eq_some_iff.mp hba
    have hl' : Linked next prev head tail (r ++ a :: b :: q) := by simpa using hl
    rw [hl'.forward.next_eq, head?_cons]

theorem Linked.remove (hl : Linked next prev head tail (p ++ b :: q))
    (hnext : ∀ a ∈ p ++ q, a ∉ p.getLast? → next' a = next a)
    (hnext' : ∀ a ∈ p.getLast?, next' a = next b)
    (hprev : ∀ a ∈ p ++ q, a ∉ q.head? → prev' a = prev a)
    (hprev' : ∀ a ∈ q.head?, prev' a = prev b) :
    Linked next' prev' (if p = [] then next b else head) (if q = [] then prev b else tail)
      (p ++ q) := by
  refine ⟨hl.forward.remove hnext hnext', ?_⟩
  have hback := hl.backward
  rw [reverse_append, reverse_cons, append_assoc, singleton_append] at hback
  have hrem : Visits prev' (if q.reverse = [] then prev b else tail) (q.reverse ++ p.reverse) := by
    apply hback.remove
    · intro a ha hnot
      rw [getLast?_reverse] at hnot
      refine hprev a ?_ hnot
      simpa [or_comm] using ha
    · intro a ha
      rw [getLast?_reverse] at ha
      exact hprev' a ha
  rw [reverse_append]
  simpa only [reverse_eq_nil_iff] using hrem

theorem Linked.append (hl : Linked next prev head tail l)
    (hnext : ∀ a ∈ l, a ∉ l.getLast? → next' a = next a)
    (hnext' : ∀ a ∈ l.getLast?, next' a = some x) (hx : next' x = none)
    (hprev : ∀ a ∈ l, prev' a = prev a) (hx' : prev' x = tail) :
    Linked next' prev' (if l = [] then some x else head) (some x) (l ++ [x]) := by
  refine ⟨hl.forward.snoc hnext hnext' hx, ?_⟩
  rw [reverse_append, reverse_singleton, singleton_append]
  refine ⟨rfl, ?_⟩
  rw [hx']
  exact hl.backward.congr fun a ha => hprev a (mem_reverse.mp ha)

theorem Linked.unlink [DecidableEq α] (hl : Linked next prev head tail (p ++ b :: q))
    (hnext : ∀ a, next' a = if prev b = some a then next b else next a)
    (hprev : ∀ a, prev' a = if next b = some a then prev b else prev a) :
    Linked next' prev' (if head = some b then next b else head)
      (if tail = some b then prev b else tail) (p ++ q) := by
  have hnb : next b = q.head? := hl.forward.next_eq
  have hpb : prev b = p.getLast? := hl.prev_eq
  have hback := hl.backward
  rw [reverse_append, reverse_cons, append_assoc, singleton_append] at hback
  rw [hl.forward.head_remove, hback.head_remove]
  simp only [reverse_eq_nil_iff]
  apply hl.remove
  · intro a _ hnot
    rw [hnext]
    exact if_neg fun h => hnot (hpb ▸ h)
  · intro a ha
    rw [hnext]
    exact if_pos (hpb.trans ha)
  · intro a _ hnot
    rw [hprev]
    exact if_neg fun h => hnot (hnb ▸ h)
  · intro a ha
    rw [hprev]
    exact if_pos (hnb.trans ha)

theorem Linked.move_last [DecidableEq α] (hl : Linked next prev head tail (p ++ b :: q))
    (hq : q ≠ [])
    (hnext : ∀ a, next' a = if a = b then none else if prev b = some a then next b
      else if tail = some a then some b else next a)
    (hprev : ∀ a, prev' a = if a = b then tail else if next b = some a then prev b else prev a) :
    Linked next' prev' (if head = some b then next b else head) (some b) (p ++ q ++ [b]) := by
  have hb : b ∉ p ++ q := (nodup_cons.mp (nodup_middle.mp hl.nodup)).1
  have hpb : prev b = p.getLast? := hl.prev_eq
  have htail : tail = (p ++ q).getLast? := by
    rw [hl.tail_eq]
    simp [getLast?_append, getLast?_cons, getLast?_eq_some_getLast hq]
  have hlast : ∀ a, tail = some a → a ∈ q := by
    intro a ha
    rw [htail, getLast?_append_of_ne_nil _ hq] at ha
    exact mem_of_getLast? ha
  have htb : tail ≠ some b := fun h => hb (mem_append_right _ (hlast b h))
  have hout : Linked (fun a => if prev b = some a then next b else next a)
      (fun a => if next b = some a then prev b else prev a)
      (if head = some b then next b else head) (if tail = some b then prev b else tail) (p ++ q) :=
    hl.unlink (fun _ => rfl) fun _ => rfl
  rw [if_neg htb] at hout
  have hne : p ++ q ≠ [] := by simp [hq]
  have hin : Linked next' prev'
      (if p ++ q = [] then some b else if head = some b then next b else head) (some b)
      (p ++ q ++ [b]) := by
    apply hout.append
    · intro a ha hnot
      have hab : a ≠ b := fun h => hb (h ▸ ha)
      have hat : tail ≠ some a := fun h => hnot (htail ▸ h)
      rw [hnext, if_neg hab, if_neg hat]
    · intro a ha
      have hmem : a ∈ p ++ q := mem_of_getLast? ha
      have hab : a ≠ b := fun h => hb (h ▸ hmem)
      have hpa : prev b ≠ some a := by
        intro h
        have hp : a ∈ p := mem_of_getLast? (hpb ▸ h)
        exact disjoint_of_nodup_append hl.nodup hp (by simp [hlast a (htail.trans ha)])
      rw [hnext, if_neg hab, if_neg hpa, if_pos (htail.trans ha)]
    · rw [hnext, if_pos rfl]
    · intro a ha
      have hab : a ≠ b := fun h => hb (h ▸ ha)
      rw [hprev, if_neg hab]
    · rw [hprev, if_pos rfl]
  rw [if_neg hne] at hin
  exact hin

end Linked

end Chain
