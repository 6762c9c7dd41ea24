import Mathlib.Data.List.GetD
import Mathlib.Tactic

/-! Strings in arrays: the elements before the first terminator. -/
namespace Terminated
open List
variable {α : Type*} {nul : α} {n i j : ℕ} {b b' : ℕ → α} {s : List α}

/-- The array `b` of `n` elements holds the string `s`, followed by the terminator. -/
structure Holds (nul : α) (n : ℕ) (b : ℕ → α) (s : List α) : Prop where
  fits : s.length < n
  clean : nul ∉ s
  value : ∀ i ≤ s.length, b i = s.getD i nul

theorem getD_ne_of_clean (h : nul ∉ s) (hi : i < s.length) : s.getD i nul ≠ nul := by
  rw [getD_eq_getElem _ _ hi]
  intro heq
  exact h (heq ▸ getElem_mem hi)

theorem exists_holds (hi : i < n) (h : b i = nul) : ∃ s, Holds nul n b s := by
  classical
  have hnul : ∃ j, b j = nul := ⟨i, h⟩
  refine ⟨(range (Nat.find hnul)).map b, ?_, ?_, fun j hj => ?_⟩
  · simpa using (Nat.find_min' hnul h).trans_lt hi
  · intro hmem
    obtain ⟨j, hj, heq⟩ := mem_map.mp hmem
    exact Nat.find_min hnul (mem_range.mp hj) heq
  · rw [length_map, length_range] at hj
    obtain hlt | rfl := hj.lt_or_eq
    · simp [hlt]
    · simpa using Nat.find_spec hnul

theorem Holds.eq_nul_iff (h : Holds nul n b s) (hi : i ≤ s.length) : b i = nul ↔ i = s.length := by
  rw [h.value i hi]
  constructor
  · intro heq
    by_contra hne
    exact getD_ne_of_clean h.clean (by omega) heq
  · rintro rfl
    rw [getD_eq_getElem?_getD, getElem?_length]
    rfl

theorem getD_take_append_drop (s : List α) (nul : α) (hij : i ≤ j) (hj : j ≤ s.length) (x : ℕ) :
    (s.take i ++ s.drop j).getD x nul = s.getD (if x < i then x else x - i + j) nul := by
  have hlen : (s.take i).length = i := by
    rw [length_take]
    omega
  simp only [getD_eq_getElem?_getD, getElem?_append, hlen]
  split
  · rw [getElem?_take, if_pos (by assumption)]
  · rw [getElem?_drop, Nat.add_comm]

/-- Moving the end of the string, with its terminator, to the front cuts out what was between. -/
theorem Holds.cut (h : Holds nul n b s) (hij : i ≤ j) (hj : j ≤ s.length)
    (hbefore : ∀ x < i, b' x = b x)
    (hmoved : ∀ x, i ≤ x → x < i + (s.length - j + 1) → b' x = b (x - i + j)) :
    Holds nul n b' (s.take i ++ s.drop j) := by
  have hlen : (s.take i ++ s.drop j).length = i + (s.length - j) := by
    rw [length_append, length_take, length_drop]
    omega
  refine ⟨?_, ?_, ?_⟩
  · have hfits := h.fits
    omega
  · intro hmem
    rcases mem_append.mp hmem with hmem | hmem
    · exact h.clean (mem_of_mem_take hmem)
    · exact h.clean (mem_of_mem_drop hmem)
  · intro x hx
    rw [getD_take_append_drop s nul hij hj]
    split
    · rw [hbefore x (by assumption), h.value x (by omega)]
    · rw [hmoved x (by omega) (by omega), h.value _ (by omega)]

theorem holds_append {t : List α} (hfits : s.length + t.length < n) (hs : nul ∉ s) (ht : nul ∉ t)
    (hbefore : ∀ x < s.length, b x = s.getD x nul)
    (hcopied : ∀ x ≤ t.length, b (s.length + x) = t.getD x nul) : Holds nul n b (s ++ t) := by
  refine ⟨?_, ?_, ?_⟩
  · rw [length_append]
    exact hfits
  · rw [mem_append, not_or]
    exact ⟨hs, ht⟩
  · intro x hx
    rw [length_append] at hx
    rcases Nat.lt_or_ge x s.length with hlt | hge
    · rw [hbefore x hlt, getD_append _ _ _ _ hlt]
    · obtain ⟨y, rfl⟩ := Nat.exists_eq_add_of_le hge
      rw [hcopied y (by omega), getD_append_right _ _ _ _ hge, Nat.add_sub_cancel_left]

theorem Holds.map_range (h : Holds nul n b s) : (List.range s.length).map b = s := by
  apply ext_getElem
  · simp
  · intro i hi hi'
    rw [getElem_map, getElem_range, h.value i hi'.le, getD_eq_getElem _ _ hi']

theorem Holds.takeWhile [DecidableEq α] (h : Holds nul n b s) :
    ((List.range n).map b).takeWhile (· ≠ nul) = s := by
  obtain ⟨k, rfl⟩ := Nat.exists_eq_add_of_lt h.fits
  have hnul : b s.length = nul := (h.eq_nul_iff le_rfl).mpr rfl
  have hsplit : (range (s.length + k + 1)).map b =
      s ++ nul :: (range k).map fun i => b (s.length + (i + 1)) := by
    rw [Nat.add_assoc, range_add, map_append, h.map_range, range_succ_eq_map]
    simp [hnul, Function.comp_def]
  have hclean : ∀ x ∈ s, decide (x ≠ nul) = true := by
    intro x hx
    exact decide_eq_true fun heq => h.clean (heq ▸ hx)
  rw [hsplit, takeWhile_append_of_pos hclean]
  simp

end Terminated
