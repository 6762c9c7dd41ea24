import Mathlib.Tactic

/-! Lists that a separator cuts into pieces, each piece behind its separator or in front of it. -/
namespace Separated
open List
variable {α : Type*} {sep : α} {l : List α} {ls : List (List α)}

def join (sep : α) (ls : List (List α)) : List α := ls.flatMap (sep :: ·)

def pieces [DecidableEq α] (sep : α) (s : List α) : List (List α) := (s.splitOn sep).filter (· ≠ [])

@[simp] theorem join_nil : join sep [] = [] := rfl

theorem join_cons : join sep (l :: ls) = sep :: (l ++ join sep ls) := rfl

theorem join_append (sep : α) (ls ms : List (List α)) :
    join sep (ls ++ ms) = join sep ls ++ join sep ms := List.flatMap_append

theorem join_concat (sep : α) (ls : List (List α)) (l : List α) :
    join sep (ls ++ [l]) = join sep ls ++ sep :: l := by
  rw [join_append, join_cons, join_nil, append_nil]

theorem join_eq_nil_iff : join sep ls = [] ↔ ls = [] := by
  cases ls with
  | nil => simp
  | cons l ls => simp [join_cons]

section Split
variable [DecidableEq α]

theorem splitOn_append_join (hl : sep ∉ l) (hls : ∀ m ∈ ls, sep ∉ m) :
    (l ++ join sep ls).splitOn sep = l :: ls := by
  induction ls generalizing l with
  | nil => rw [join_nil, append_nil, splitOn_eq_singleton hl]
  | cons m ls ih =>
    rw [forall_mem_cons] at hls
    rw [join_cons, splitOn_append_cons_self, splitOn_eq_singleton hl, ih hls.1 hls.2]
    rfl

theorem splitOn_join (hls : ∀ m ∈ ls, sep ∉ m) : (join sep ls).splitOn sep = [] :: ls := by
  simpa using splitOn_append_join (l := []) (by simp) hls

theorem pieces_join (hls : ∀ m ∈ ls, sep ∉ m) : pieces sep (join sep ls) = ls.filter (· ≠ []) := by
  rw [pieces, splitOn_join hls, filter_cons_of_neg (by simp)]

theorem join_splitOn (sep : α) (s : List α) : join sep (s.splitOn sep) = sep :: s := by
  obtain ⟨l, ls, hls⟩ := exists_cons_of_ne_nil (splitOn_ne_nil sep s)
  have hback : [sep].intercalate (s.splitOn sep) = s := intercalate_splitOn sep
  rw [hls] at hback ⊢
  rw [← hback, join_cons]
  congr 1
  clear hback hls
  induction ls generalizing l with
  | nil => simp [intercalate]
  | cons m ls ih =>
    rw [join_cons, ih m]
    simp [intercalate]

theorem not_mem_of_mem_splitOn {s : List α} (h : l ∈ s.splitOn sep) : sep ∉ l := by
  induction s generalizing l with
  | nil =>
    rw [splitOn_nil, mem_singleton] at h
    simp [h]
  | cons a s ih =>
    unfold splitOn at h ih
    obtain ⟨r, rs, hr⟩ := exists_cons_of_ne_nil (splitOnP_ne_nil (· == sep) s)
    rw [splitOnP_cons_eq_if_modifyHead] at h
    rw [hr] at h ih
    split at h
    · rcases mem_cons.mp h with rfl | hmem
      · exact not_mem_nil
      · exact ih hmem
    · rename_i ha
      rw [modifyHead_cons] at h
      rcases mem_cons.mp h with rfl | hmem
      · rw [mem_cons, not_or]
        exact ⟨fun heq => ha (by simp [heq]), ih mem_cons_self⟩
      · exact ih (mem_cons_of_mem _ hmem)

end Split

def splitAfter [DecidableEq α] (sep : α) : List α → List (List α)
  | [] => []
  | a :: s =>
    if a = sep then [a] :: splitAfter sep s
    else
      match splitAfter sep s with
      | [] => [[a]]
      | l :: ls => (a :: l) :: ls

/-- A separator stands nowhere but at the end of a piece, and at the end of each but the last. -/
structure CutBehind (sep : α) (ls : List (List α)) : Prop where
  ne_nil : ∀ l ∈ ls, l ≠ []
  inner : ∀ l ∈ ls, sep ∉ l.dropLast
  ended : ∀ l ∈ ls.dropLast, l.getLast? = some sep

section Behind
variable {a : α} {s : List α}

theorem CutBehind.nil : CutBehind sep [] := ⟨by simp, by simp, by simp⟩

theorem CutBehind.cons_sep (h : CutBehind sep ls) : CutBehind sep ([sep] :: ls) := by
  constructor
  · simpa using h.ne_nil
  · simpa using h.inner
  · intro l hl
    cases ls with
    | nil => simp at hl
    | cons m ls =>
      rw [dropLast_cons_cons] at hl
      rcases mem_cons.mp hl with rfl | hl
      · rfl
      · exact h.ended l hl

theorem CutBehind.cons_head (ha : a ≠ sep) (h : CutBehind sep (l :: ls)) :
    CutBehind sep ((a :: l) :: ls) := by
  have hne : l ≠ [] := h.ne_nil l mem_cons_self
  have hlast : (a :: l).getLast? = l.getLast? := by
    rw [getLast?_cons, getLast?_eq_some_getLast hne]
    rfl
  constructor
  · intro m hm
    rcases mem_cons.mp hm with rfl | hm
    · exact cons_ne_nil _ _
    · exact h.ne_nil m (mem_cons_of_mem _ hm)
  · intro m hm
    rcases mem_cons.mp hm with rfl | hm
    · rw [dropLast_cons_of_ne_nil hne, mem_cons, not_or]
      exact ⟨ha.symm, h.inner l mem_cons_self⟩
    · exact h.inner m (mem_cons_of_mem _ hm)
  · intro m hm
    cases ls with
    | nil => simp at hm
    | cons k ls =>
      rw [dropLast_cons_cons] at hm
      rcases mem_cons.mp hm with rfl | hm
      · rw [hlast]
        exact h.ended l (by rw [dropLast_cons_cons]; exact mem_cons_self)
      · exact h.ended m (by rw [dropLast_cons_cons]; exact mem_cons_of_mem _ hm)

variable [DecidableEq α]

theorem splitAfter_sep (s : List α) : splitAfter sep (sep :: s) = [sep] :: splitAfter sep s :=
  if_pos rfl

theorem splitAfter_of_nil (ha : a ≠ sep) (h : splitAfter sep s = []) :
    splitAfter sep (a :: s) = [[a]] := by
  rw [splitAfter, if_neg ha, h]

theorem splitAfter_of_cons (ha : a ≠ sep) (h : splitAfter sep s = l :: ls) :
    splitAfter sep (a :: s) = (a :: l) :: ls := by
  rw [splitAfter, if_neg ha, h]

theorem splitAfter_flatten (sep : α) (s : List α) : (splitAfter sep s).flatten = s := by
  induction s with
  | nil => rfl
  | cons a s ih =>
    by_cases ha : a = sep
    · rw [ha, splitAfter_sep, flatten_cons, ih, singleton_append]
    · cases hs : splitAfter sep s with
      | nil =>
        rw [hs, flatten_nil] at ih
        rw [splitAfter_of_nil ha hs, ← ih]
        rfl
      | cons l ls =>
        rw [hs, flatten_cons] at ih
        rw [splitAfter_of_cons ha hs, flatten_cons, cons_append, ih]

theorem splitAfter_eq_nil_iff : splitAfter sep s = [] ↔ s = [] := by
  constructor
  · intro h
    rw [← splitAfter_flatten sep s, h]
    rfl
  · rintro rfl
    rfl

theorem splitAfter_cutBehind (sep : α) (s : List α) : CutBehind sep (splitAfter sep s) := by
  induction s with
  | nil => exact CutBehind.nil
  | cons a s ih =>
    by_cases ha : a = sep
    · rw [ha, splitAfter_sep]
      exact ih.cons_sep
    · cases hs : splitAfter sep s with
      | nil =>
        rw [splitAfter_of_nil ha hs]
        exact ⟨by simp, by simp, by simp⟩
      | cons l ls =>
        rw [hs] at ih
        rw [splitAfter_of_cons ha hs]
        exact ih.cons_head ha

theorem length_splitAfter_le (sep : α) (s : List α) : (splitAfter sep s).length ≤ s.length := by
  induction s with
  | nil => exact le_rfl
  | cons a s ih =>
    by_cases ha : a = sep
    · rw [ha, splitAfter_sep]
      exact Nat.succ_le_succ ih
    · cases hs : splitAfter sep s with
      | nil => simp [splitAfter_of_nil ha hs]
      | cons l ls =>
        rw [hs] at ih
        rw [splitAfter_of_cons ha hs]
        exact ih.trans (Nat.le_succ _)

theorem splitOn_eq_splitAfter (sep : α) (s : List α) :
    ∃ t, s.splitOn sep = (splitAfter sep s).map (List.takeWhile (· ≠ sep)) ++ t := by
  induction s with
  | nil => exact ⟨_, rfl⟩
  | cons a s ih =>
    obtain ⟨t, ht⟩ := ih
    by_cases ha : a = sep
    · have hcut : (sep :: s).splitOn sep = ([] : List α).splitOn sep ++ s.splitOn sep :=
        splitOn_append_cons_self [] s
      exact ⟨t, by rw [ha, hcut, ht, splitAfter_sep]; simp⟩
    · have hcut : (a :: s).splitOn sep = (s.splitOn sep).modifyHead (cons a) := by
        unfold splitOn
        rw [splitOnP_cons_eq_if_modifyHead, if_neg (by simpa using ha)]
      cases hs : splitAfter sep s with
      | nil =>
        obtain rfl := splitAfter_eq_nil_iff.mp hs
        exact ⟨[], by rw [hcut, splitAfter_of_nil ha hs]; simp [ha]⟩
      | cons l ls =>
        rw [hs] at ht
        exact ⟨t, by rw [hcut, ht, splitAfter_of_cons ha hs]; simp [ha]⟩

theorem CutBehind.length_le (h : CutBehind sep ls) (hl : l ∈ ls) :
    l.length ≤ (l.takeWhile (· ≠ sep)).length + 1 := by
  have hne := h.ne_nil l hl
  have hinner : ∀ x ∈ l.dropLast, decide (x ≠ sep) = true := by
    intro x hx
    exact decide_eq_true fun heq => h.inner l hl (heq ▸ hx)
  have hsplit := dropLast_append_getLast hne
  have hlen : l.length = l.dropLast.length + 1 := by
    conv_lhs => rw [← hsplit]
    rw [length_append, length_singleton]
  have htake : l.takeWhile (· ≠ sep) = l.dropLast ++ [l.getLast hne].takeWhile (· ≠ sep) := by
    conv_lhs => rw [← hsplit]
    exact takeWhile_append_of_pos hinner
  rw [hlen, htake, length_append]
  omega

theorem length_le_of_splitOn {n : ℕ} (h : ∀ m ∈ s.splitOn sep, m.length < n)
    (hl : l ∈ splitAfter sep s) : l.length ≤ n := by
  obtain ⟨t, ht⟩ := splitOn_eq_splitAfter sep s
  have hmem : l.takeWhile (· ≠ sep) ∈ s.splitOn sep := by
    rw [ht]
    exact mem_append_left _ (mem_map_of_mem hl)
  have hlt := h _ hmem
  have hle := (splitAfter_cutBehind sep s).length_le hl
  omega

end Behind

end Separated
