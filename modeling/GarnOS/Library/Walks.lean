import Mathlib.Data.List.Infix

/-! Walks along a partial successor function, and how a single changed link shows in them. -/
namespace Walks
open List

variable {ν ι : Type*}

def follow (next : ν → ι → Option ν) : ν → List ι → Option ν
  | t, [] => some t
  | t, i :: p => (next t i).bind fun u => follow next u p

def Unique (next : ν → ι → Option ν) (root : ν) (P : List ι → Prop) : Prop :=
  ∀ p q t, P p → P q → follow next root p = some t → follow next root q = some t → p = q

/-- From `next` to `next'` only the link that ends the path `r` changes, as far as paths of the
family can tell. -/
structure Relinked (next next' : ν → ι → Option ν) (root : ν) (Q : List ι → Prop) (r : List ι) :
    Prop where
  closed : ∀ q j, Q (q ++ [j]) → Q q
  others : ∀ q u j, Q (q ++ [j]) → follow next root q = some u → q ++ [j] ≠ r → next' u j = next u j

section Follow
variable {next next' : ν → ι → Option ν} {root t f : ν} {p q r : List ι} {i j : ι}
  {P Q : List ι → Prop}

theorem follow_append :
    follow next t (p ++ q) = (follow next t p).bind fun u => follow next u q := by
  induction p generalizing t with
  | nil => rfl
  | cons i p ih =>
    simp only [cons_append, follow]
    cases next t i with
    | none => rfl
    | some u => exact ih

theorem follow_concat : follow next t (p ++ [i]) = (follow next t p).bind fun u => next u i := by
  rw [follow_append]
  congr 1
  funext u
  cases hu : next u i <;> simp [follow, hu]

theorem Relinked.follow_eq (h : Relinked next next' root Q r) (hq : Q q) (hr : ¬r <+: q) :
    follow next' root q = follow next root q := by
  induction q using reverseRecOn with
  | nil => rfl
  | append_singleton q j ih =>
    have hr' : ¬r <+: q := fun hle => hr (hle.trans (prefix_append q [j]))
    rw [follow_concat, follow_concat, ih (h.closed q j hq) hr']
    cases hu : follow next root q with
    | none => rfl
    | some u => exact h.others q u j hq hu fun he => hr (he ▸ prefix_rfl)

section
variable (h : Relinked next next' root Q (p ++ [i])) (hp : Q p)
include h hp

theorem Relinked.follow_before : follow next' root p = follow next root p := by
  refine h.follow_eq hp fun hle => ?_
  have hlength := hle.length_le
  simp only [length_append, length_singleton] at hlength
  omega

theorem Relinked.follow_self (ht : follow next root p = some t) :
    follow next' root (p ++ [i]) = next' t i := by
  rw [follow_concat, h.follow_before hp, ht, Option.bind_some]

theorem Relinked.follow_below (ht : follow next root p = some t) (hnew : next' t i = some f)
    (hleaf : next' f j = none) : follow next' root (p ++ [i] ++ j :: q) = none := by
  rw [follow_append, h.follow_self hp ht, hnew, Option.bind_some, follow, hleaf, Option.bind_none]

end

theorem prefix_cases (h : r <+: q) : q = r ∨ ∃ j q', q = r ++ j :: q' := by
  obtain ⟨q', rfl⟩ := h
  cases q' with
  | nil => exact .inl (append_nil r)
  | cons j q' => exact .inr ⟨j, q', rfl⟩

/-- A node without links hung into an absent link: only the path to it leads anywhere new. -/
theorem Relinked.graft_cases (h : Relinked next next' root Q (p ++ [i])) (hp : Q p)
    (ht : follow next root p = some t) (habsent : next t i = none) (hnew : next' t i = some f)
    (hleaf : ∀ j q', Q (p ++ [i] ++ j :: q') → next' f j = none) (hq : Q q) :
    (follow next' root q = follow next root q ∧ q ≠ p ++ [i]) ∨
      (q = p ++ [i] ∧ follow next' root q = some f) := by
  by_cases hle : p ++ [i] <+: q
  · obtain rfl | ⟨j, q', rfl⟩ := prefix_cases hle
    · exact .inr ⟨rfl, (h.follow_self hp ht).trans hnew⟩
    · refine .inl ⟨?_, by simp⟩
      have hold : follow next root (p ++ [i]) = none := by
        rw [follow_concat, ht, Option.bind_some, habsent]
      rw [h.follow_below hp ht hnew (hleaf j q' hq), follow_append, hold, Option.bind_none]
  · exact .inl ⟨h.follow_eq hq hle, fun he => hle (he ▸ prefix_rfl)⟩

end Follow

end Walks
