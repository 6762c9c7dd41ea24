import GarnOS.Library.Runs
import Mathlib.Tactic

/-! Taking turns in a circle that grows at its end. -/
namespace RoundRobin
open Runs List

variable {α : Type*}

/-- Distinct members in order, and the position of the one whose turn is next. -/
structure Circle (α : Type*) where
  names : List α
  nodup : names.Nodup
  next : ℕ
  next_lt : next < names.length

inductive Turn (α : Type*) where
  | join (a : α)
  | pick (a : α)
  | rest
  deriving DecidableEq

namespace Circle

def turn (r : Circle α) : α := r.names.get ⟨r.next, r.next_lt⟩

/-- The turn goes to the next member, from the last one to the first. -/
def advance (r : Circle α) : Circle α where
  names := r.names
  nodup := r.nodup
  next := if r.next + 1 < r.names.length then r.next + 1 else 0
  next_lt := by
    have hlt := r.next_lt
    split_ifs <;> omega

def insert (r : Circle α) (a : α) (ha : a ∉ r.names) : Circle α where
  names := r.names ++ [a]
  nodup := by simpa [List.nodup_append] using ⟨r.nodup, fun b hb heq => ha (heq ▸ hb)⟩
  next := r.next
  next_lt := by
    have hlt := r.next_lt
    simp only [List.length_append]
    omega

@[simp] theorem advance_next (r : Circle α) :
    r.advance.next = if r.next + 1 < r.names.length then r.next + 1 else 0 := rfl

@[simp] theorem insert_names (r : Circle α) {a : α} (ha : a ∉ r.names) :
    (r.insert a ha).names = r.names ++ [a] := rfl

@[simp] theorem insert_next (r : Circle α) {a : α} (ha : a ∉ r.names) :
    (r.insert a ha).next = r.next := rfl

inductive Step : Circle α → Turn α → Circle α → Prop where
  | join {r : Circle α} {a : α} (ha : a ∉ r.names) : Step r (.join a) (r.insert a ha)
  | pick {r : Circle α} : Step r (.pick r.turn) r.advance
  | rest {r : Circle α} : Step r .rest r

section Laps
variable {r r' : Circle α} {a b t u : α} {i j k : ℕ} {e : Turn α} {es : List (Turn α)}

theorem getElem?_turn (r : Circle α) : r.names[r.next]? = some r.turn := by
  rw [getElem?_eq_getElem r.next_lt]
  rfl

theorem step_pick : Step r (.pick t) r' ↔ r.turn = t ∧ r' = r.advance := by
  constructor
  · intro h
    cases h
    exact ⟨rfl, rfl⟩
  · rintro ⟨rfl, rfl⟩
    exact .pick

theorem Step.getElem?_eq (h : Step r e r') (ha : r.names[i]? = some a) :
    r'.names[i]? = some a := by
  cases h with
  | join hb =>
    rw [insert_names, List.getElem?_append_left (List.getElem?_eq_some_iff.mp ha).1]
    exact ha
  | pick | rest => exact ha

theorem trace_getElem?_eq (ha : r.names[i]? = some a) (hrun : Trace Step r es r') :
    r'.names[i]? = some a := by
  induction es generalizing r with
  | nil =>
    obtain rfl : r = r' := hrun
    exact ha
  | cons e es ih =>
    obtain ⟨r1, hstep, hrest⟩ := hrun
    exact ih (hstep.getElem?_eq ha) hrest

theorem position_inj (r : Circle α) (ha : r.names[i]? = some a) (hb : r.names[j]? = some b) :
    i = j ↔ a = b := by
  constructor
  · rintro rfl
    exact Option.some.inj (ha.symm.trans hb)
  · rintro rfl
    obtain ⟨hi, hai⟩ := List.getElem?_eq_some_iff.mp ha
    obtain ⟨hj, haj⟩ := List.getElem?_eq_some_iff.mp hb
    exact (r.nodup.getElem_inj_iff).mp (hai.trans haj.symm)

/-- How often position `j` had its turn since position `k` had it, when position `i` is next;
`wrapped` says that the turn went from the last member to the first in between. -/
def passed (k j i : ℕ) (wrapped : Bool) : ℕ :=
  if wrapped then (if k < j ∨ j < i then 1 else 0) else if k < j ∧ j < i then 1 else 0

/-- Before the end of the circle the turn is behind `k`, after it not beyond `k`. -/
def Behind (k i : ℕ) (wrapped : Bool) : Prop := if wrapped then i ≤ k else k < i

theorem passed_advance {w : Bool} (hk : k < r.names.length) (hj : j < r.names.length)
    (hbehind : Behind k r.next w) (hne : r.next ≠ k) :
    ∃ w', Behind k r.advance.next w' ∧
      passed k j r.advance.next w' = passed k j r.next w + if r.next = j then 1 else 0 := by
  refine ⟨if r.next + 1 < r.names.length then w else true, ?_⟩
  rw [advance_next]
  split
  all_goals
    cases w
    all_goals
      simp only [Behind, passed, Bool.false_eq_true, if_true, if_false] at hbehind ⊢
      constructor
      · omega
      · split_ifs <;> omega

theorem passed_start (hj : j < r.names.length) :
    ∃ w, Behind r.next r.advance.next w ∧ passed r.next j r.advance.next w = 0 := by
  refine ⟨!decide (r.next + 1 < r.names.length), ?_⟩
  rw [advance_next]
  split
  next hend => simp [Behind, passed, hend]
  next hend =>
    simp [Behind, passed, hend]
    omega

/-- Along a run without a turn of `t`, the turns of `u` are counted by the positions. -/
theorem count_pick [DecidableEq α] {w : Bool} (ht : r.names[k]? = some t)
    (hu : r.names[j]? = some u) (hbehind : Behind k r.next w) (hno : Turn.pick t ∉ es)
    (hrun : Trace Step r es r') :
    ∃ w', Behind k r'.next w' ∧
      passed k j r'.next w' = passed k j r.next w + es.count (.pick u) := by
  induction es generalizing r w with
  | nil =>
    obtain rfl : r = r' := hrun
    exact ⟨w, hbehind, by simp⟩
  | cons e es ih =>
    obtain ⟨r1, hstep, hrest⟩ := hrun
    obtain ⟨hne, hrestno⟩ := not_or.mp (mt mem_cons.mpr hno)
    have ht1 := hstep.getElem?_eq ht
    have hu1 := hstep.getElem?_eq hu
    cases hstep with
    | join hb =>
      obtain ⟨w', hw', hcount⟩ := ih ht1 hu1 hbehind hrestno hrest
      refine ⟨w', hw', hcount.trans ?_⟩
      rw [count_cons_of_ne (by simp)]
      rfl
    | pick =>
      have hk : r.next ≠ k := fun heq =>
        hne (congrArg Turn.pick ((r.position_inj r.getElem?_turn ht).mp heq).symm)
      obtain ⟨w1, hw1, hpass⟩ := passed_advance (List.getElem?_eq_some_iff.mp ht).1
        (List.getElem?_eq_some_iff.mp hu).1 hbehind hk
      obtain ⟨w', hw', hcount⟩ := ih ht1 hu1 hw1 hrestno hrest
      refine ⟨w', hw', ?_⟩
      rw [hcount, hpass, count_cons]
      have hiff := r.position_inj r.getElem?_turn hu
      by_cases hj : r.next = j
      · simp [hj, hiff.mp hj]
        omega
      · have hneq : r.turn ≠ u := fun heq => hj (hiff.mpr heq)
        simp [hj, hneq]
    | rest =>
      obtain ⟨w', hw', hcount⟩ := ih ht1 hu1 hbehind hrestno hrest
      refine ⟨w', hw', hcount.trans ?_⟩
      rw [count_cons_of_ne (by simp)]

/-- Between two consecutive turns of `t`, every other member of the circle has exactly one. -/
theorem once_between [DecidableEq α] {r1 r2 r3 r4 : Circle α} (h1 : Step r1 (.pick t) r2)
    (hrun : Trace Step r2 es r3) (h2 : Step r3 (.pick t) r4) (hno : Turn.pick t ∉ es)
    (hu : u ∈ r2.names) (hne : u ≠ t) : es.count (.pick u) = 1 := by
  obtain ⟨ht, rfl⟩ := step_pick.mp h1
  obtain ⟨ht', -⟩ := step_pick.mp h2
  obtain ⟨j, hj⟩ := mem_iff_getElem?.mp hu
  have hk : r1.advance.names[r1.next]? = some t := ht ▸ r1.getElem?_turn
  have hkj : r1.next ≠ j := fun heq => hne ((r1.advance.position_inj hk hj).mp heq).symm
  obtain ⟨w, hw, hzero⟩ := passed_start (r := r1) (List.getElem?_eq_some_iff.mp hj).1
  obtain ⟨w', hw', hcount⟩ := count_pick hk hj hw hno hrun
  have hend : r3.next = r1.next := by
    have hk3 : r3.names[r1.next]? = some t := trace_getElem?_eq hk hrun
    exact (r3.position_inj r3.getElem?_turn hk3).mpr ht'
  rw [hend] at hw' hcount
  rw [hzero, Nat.zero_add] at hcount
  rw [← hcount]
  cases w' with
  | false => simp [Behind] at hw'
  | true =>
    simp only [passed]
    simp
    omega

end Laps

end Circle
end RoundRobin
