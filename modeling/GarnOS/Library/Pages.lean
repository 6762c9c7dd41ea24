import Mathlib.Tactic

/-! Weighted lists, taken in portions: the longest part from the front that fits a bound. -/
namespace Pages
variable {α : Type*} {w : α → ℕ} {n : ℕ} {a : α} {l p : List α}

def weight (w : α → ℕ) (l : List α) : ℕ := (l.map w).sum

@[simp] theorem weight_nil : weight w [] = 0 := rfl

@[simp] theorem weight_cons : weight w (a :: l) = w a + weight w l := List.sum_cons

@[simp] theorem weight_append : weight w (l ++ p) = weight w l + weight w p := by
  simp [weight]

def takeFit (w : α → ℕ) : ℕ → List α → List α
  | _, [] => []
  | n, a :: l => if w a ≤ n then a :: takeFit w (n - w a) l else []

def dropFit (w : α → ℕ) (n : ℕ) (l : List α) : List α := l.drop (takeFit w n l).length

theorem takeFit_cons (h : w a ≤ n) : takeFit w n (a :: l) = a :: takeFit w (n - w a) l := if_pos h

theorem takeFit_append_dropFit : takeFit w n l ++ dropFit w n l = l := by
  induction l generalizing n with
  | nil => rfl
  | cons a l ih =>
    by_cases h : w a ≤ n
    · have hrest := @ih (n - w a)
      rw [dropFit] at hrest
      simp [dropFit, takeFit_cons h, hrest]
    · simp [dropFit, takeFit, h]

theorem weight_takeFit_le : weight w (takeFit w n l) ≤ n := by
  induction l generalizing n with
  | nil => exact Nat.zero_le n
  | cons a l ih =>
    by_cases h : w a ≤ n
    · have hrest := @ih (n - w a)
      rw [takeFit_cons h, weight_cons]
      omega
    · simp [takeFit, h]

theorem takeFit_eq_self (h : weight w l ≤ n) : takeFit w n l = l := by
  induction l generalizing n with
  | nil => rfl
  | cons a l ih =>
    rw [weight_cons] at h
    rw [takeFit_cons (by omega), ih (by omega)]

theorem takeFit_ne_nil (hl : l ≠ []) (hfit : ∀ a ∈ l, w a ≤ n) : takeFit w n l ≠ [] := by
  obtain ⟨a, l, rfl⟩ := List.exists_cons_of_ne_nil hl
  rw [takeFit_cons (hfit a List.mem_cons_self)]
  exact List.cons_ne_nil _ _

theorem weight_pos (hl : l ≠ []) (hpos : ∀ a ∈ l, 0 < w a) : 0 < weight w l := by
  obtain ⟨a, l, rfl⟩ := List.exists_cons_of_ne_nil hl
  rw [weight_cons]
  have ha := hpos a List.mem_cons_self
  omega

end Pages
