import Mathlib.Tactic

/-! Heaps of objects of one type: the allocated objects by address, all below some bound, and sums
over them. -/

@[ext] structure Objects (α : Type*) where
  get : ℕ → Option α
  bound : ℕ
  above : ∀ a, bound ≤ a → get a = none

namespace Objects
open Function Finset
variable {α : Type*} {m m' : Objects α} {a b : ℕ} {x : α} {f f' : α → ℕ}

def empty : Objects α := ⟨fun _ => none, 0, fun _ _ => rfl⟩

def set (m : Objects α) (a : ℕ) (x : α) : Objects α where
  get := update m.get a (some x)
  bound := max m.bound (a + 1)
  above := by
    intro b hb
    have hba : b ≠ a := by omega
    rw [update_of_ne hba]
    exact m.above b (by omega)

def free (m : Objects α) (a : ℕ) : Objects α where
  get := update m.get a none
  bound := m.bound
  above := by
    intro b hb
    by_cases hba : b = a
    · rw [hba, update_self]
    · rw [update_of_ne hba]
      exact m.above b hb

@[simp] theorem set_get : (m.set a x).get = update m.get a (some x) := rfl

@[simp] theorem free_get : (m.free a).get = update m.get a none := rfl

theorem lt_bound (m : Objects α) (h : m.get a = some x) : a < m.bound := by
  by_contra hle
  rw [m.above a (not_lt.mp hle)] at h
  cases h

theorem set_set {y : α} : (m.set a x).set a y = m.set a y := by
  ext1
  · exact update_idem ..
  · simp [set]

/-- Where the next object goes: to any address that is not in use. -/
structure Allocator (α : Type*) where
  alloc : Objects α → ℕ
  fresh : ∀ m : Objects α, m.get (alloc m) = none

theorem Allocator.ne_alloc (k : Allocator α) (h : m.get a = some x) : a ≠ k.alloc m := by
  rintro rfl
  rw [k.fresh] at h
  cases h

theorem Allocator.get_set_alloc (k : Allocator α) {y : α} (h : m.get a = some x) :
    (m.set (k.alloc m) y).get a = some x := by
  rw [set_get, update_of_ne (k.ne_alloc h), h]

/-- An allocator that hands out addresses in order. -/
def Allocator.bump : Allocator α := ⟨bound, fun m => m.above _ le_rfl⟩

def total (f : α → ℕ) (m : Objects α) : ℕ := ∑ a ∈ range m.bound, (m.get a).elim 0 f

theorem total_eq_range {n : ℕ} (hn : m.bound ≤ n) :
    m.total f = ∑ a ∈ range n, (m.get a).elim 0 f := by
  refine sum_subset (range_mono hn) fun a _ ha => ?_
  rw [m.above a (by simpa using ha), Option.elim_none]

theorem total_congr (h : ∀ a, (m.get a).elim 0 f = (m'.get a).elim 0 f') :
    m.total f = m'.total f' := by
  rw [total_eq_range (le_max_left m.bound m'.bound), total_eq_range (le_max_right m.bound m'.bound)]
  exact sum_congr rfl fun a _ => h a

theorem total_eq_add (h : m.get a = some x) : m.total f = f x + (m.free a).total f := by
  have ha : a ∈ range m.bound := by
    rw [mem_range]
    by_contra hge
    rw [m.above a (by omega)] at h
    cases h
  have hfree : (m.free a).total f = ∑ b ∈ (range m.bound).erase a, (m.get b).elim 0 f := by
    rw [total, show (m.free a).bound = m.bound from rfl, ← add_sum_erase _ _ ha, free_get,
      update_self, Option.elim_none, zero_add]
    refine sum_congr rfl fun b hb => ?_
    rw [update_of_ne (ne_of_mem_erase hb)]
  rw [total, ← add_sum_erase _ _ ha, hfree, h, Option.elim_some]

theorem total_set (h : m.get a = none) : (m.set a x).total f = f x + m.total f := by
  have hset : (m.set a x).get a = some x := by simp
  rw [total_eq_add hset]
  refine congrArg _ (total_congr fun b => ?_)
  by_cases hb : b = a
  · simp [hb, h]
  · simp [hb]

theorem total_change (h : m.get a = some x) (hf : ∀ b y, b ≠ a → m.get b = some y → f' y = f y) :
    m.total f' + f x = m.total f + f' x := by
  have hrest : (m.free a).total f' = (m.free a).total f := by
    refine total_congr fun b => ?_
    by_cases hb : b = a
    · simp [hb]
    · cases hget : m.get b with
      | none => simp [hb, hget]
      | some y => simp [hb, hget, hf b y hb hget]
  rw [total_eq_add h, total_eq_add h, hrest]
  omega

end Objects
