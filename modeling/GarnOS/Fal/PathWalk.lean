import GarnOS.Fal.PathBuffer
import GarnOS.Library.Separated

/-! The loop of `vnode_get_absolute_path` on the components of a path. -/
namespace GarnOS
open Separated List Nat

/-- The loop, component by component: the components it has passed, last first, and how many
characters of the rest it skips, because an edit has moved them behind its index. A component that
starts with a dot without being `.` or `..` is not described if the loop comes to its slash. -/
def walkParts : List (List Char) → ℕ → List (List Char) → Option (List (List Char))
  | st, _, [] => some st.reverse
  | st, k + 1, c :: cs => walkParts (c :: st) (k - c.length) cs
  | st, 0, c :: cs =>
    if c = [] then if cs = [] then some (c :: st).reverse else walkParts st 1 cs
    else if c = ['.'] then walkParts st 1 cs
    else if c = ['.', '.'] then
      match st with
      | [] => walkParts [] 1 cs
      | [x] => walkParts [c, x] 0 cs
      | x :: y :: st =>
        if cs = [] then some ([] :: y :: st).reverse else walkParts (y :: st) (x.length + 2) cs
    else if c.head? = some '.' then none
    else walkParts (c :: st) 0 cs

theorem walkParts_nil (st : List (List Char)) (k : ℕ) : walkParts st k [] = some st.reverse := by
  cases k with
  | zero | succ k => rfl

section Scan
variable {s t A x : List Char} {i j n d fuel fuel' : ℕ}

def scan (s : List Char) (i dirindex : ℕ) : List Char := scanPath (s.length - i) s i dirindex

theorem scanPath_congr (h : s.length ≤ i + fuel) (h' : s.length ≤ i + fuel') :
    scanPath fuel s i d = scanPath fuel' s i d := by
  induction fuel generalizing fuel' s i d with
  | zero =>
    cases fuel' with
    | zero => rfl
    | succ fuel' => rw [scanPath, scanPath, if_neg (by omega)]
  | succ fuel ih =>
    cases fuel' with
    | zero => rw [scanPath, scanPath, if_neg (by omega)]
    | succ fuel' =>
      rw [scanPath, scanPath]
      split
      · have hle := editPath_length_le s i (if s.getD i NUL = '/' then d + 1 else d)
        exact ih (by omega) (by omega)
      · rfl

theorem scanPath_eq_scan (h : s.length ≤ i + fuel) : scanPath fuel s i d = scan s i d :=
  scanPath_congr h (by omega)

theorem scan_done (h : s.length ≤ i) : scan s i d = s := by
  rw [scan, Nat.sub_eq_zero_of_le h, scanPath]

theorem scan_step (h : i < s.length) : scan s i d =
    let d' := if s.getD i NUL = '/' then d + 1 else d
    scan (editPath s i d') (i + 1) d' := by
  have hle := editPath_length_le s i (if s.getD i NUL = '/' then d + 1 else d)
  have hfuel : scanPath (s.length - i - 1 + 1) s i d = scan s i d := scanPath_eq_scan (by omega)
  rw [← hfuel, scanPath, if_pos h]
  exact scanPath_eq_scan (by omega)

theorem getD_of_starts {cs : List Char} (h : '/' :: cs <+: s.drop i) : s.getD i NUL = '/' := by
  obtain ⟨r, hr⟩ := h
  have hget : (s.drop i)[0]? = some '/' := by
    rw [← hr]
    rfl
  rw [getElem?_drop, add_zero] at hget
  rw [getD_eq_getElem?_getD, hget]
  rfl

theorem editPath_of_ne (h : s.getD i NUL ≠ '/') : editPath s i d = s := by
  have hnot : ∀ cs, ¬ '/' :: cs <+: s.drop i := fun cs hcs => h (getD_of_starts hcs)
  rw [editPath, if_neg (hnot _), if_neg (hnot _), if_neg (hnot _), if_neg (hnot _)]

theorem scan_skip (hij : i ≤ j) (h : ∀ y, i ≤ y → y < j → s.getD y NUL ≠ '/') :
    scan s i d = scan s j d := by
  induction j, hij using le_induction with
  | base => rfl
  | succ j hij ih =>
    rw [ih fun y hlo hhi => h y hlo (by omega)]
    rcases lt_or_ge j s.length with hlt | hge
    · have hne := h j hij (lt_succ_self j)
      rw [scan_step hlt]
      dsimp only
      rw [if_neg hne, editPath_of_ne hne]
    · rw [scan_done hge, scan_done (by omega)]

theorem lastSlash_eq_none (h : ∀ y, 0 < y → y ≤ n → s.getD y NUL ≠ '/') : lastSlash s n = none := by
  induction n with
  | zero => rfl
  | succ n ih =>
    rw [lastSlash, if_neg (h (n + 1) (by omega) le_rfl)]
    exact ih fun y hlo hhi => h y hlo (by omega)

theorem lastSlash_eq_some (hj : 0 < j) (hslash : s.getD j NUL = '/') (hn : j ≤ n)
    (h : ∀ y, j < y → y ≤ n → s.getD y NUL ≠ '/') : lastSlash s n = some j := by
  induction n, hn using le_induction with
  | base =>
    obtain ⟨k, rfl⟩ := exists_eq_succ_of_ne_zero hj.ne'
    rw [lastSlash, if_pos hslash]
  | succ n hn ih =>
    rw [lastSlash, if_neg (h (n + 1) (by omega) le_rfl)]
    exact ih fun y hlo hhi => h y hlo (by omega)

theorem getD_part_ne (hx : '/' ∉ x) (A t : List Char) {y : ℕ} (hlo : A.length < y)
    (hhi : y ≤ A.length + x.length) : (A ++ '/' :: (x ++ t)).getD y NUL ≠ '/' := by
  obtain ⟨z, rfl⟩ := Nat.exists_eq_add_of_lt hlo
  rw [getD_append_right _ _ _ _ (by omega)]
  have hindex : A.length + z + 1 - A.length = z + 1 := by omega
  rw [hindex, getD_cons_succ, getD_append _ _ _ _ (by omega),
    getD_eq_getElem _ _ (by omega)]
  intro heq
  exact hx (heq ▸ getElem_mem _)

theorem getD_slash (A t : List Char) : (A ++ '/' :: t).getD A.length NUL = '/' := by
  rw [getD_append_right _ _ _ _ le_rfl, Nat.sub_self]
  rfl

end Scan

section Edits
variable {A : List Char} {c x : List Char} {cs : List (List Char)} {d keep : ℕ}

theorem editPath_slash (A t : List Char) (d : ℕ) : editPath (A ++ '/' :: t) A.length d =
    if ['.', '.', '/'] <+: t then editParent (A ++ '/' :: t) A.length d 0
    else if ['.', '.'] <+: t then editParent (A ++ '/' :: t) A.length d 1
    else if ['.'] <+: t then A ++ t.drop 1
    else if ['/'] <+: t then A ++ t
    else A ++ '/' :: t := by
  have hdrop : ∀ k, (A ++ '/' :: t).drop (A.length + k) = ('/' :: t).drop k := by
    intro k
    rw [← drop_drop, drop_left]
  have htake : (A ++ '/' :: t).take A.length = A := take_left
  have hhere : (A ++ '/' :: t).drop A.length = '/' :: t := drop_left
  have hstarts : ∀ cs, '/' :: cs <+: '/' :: t ↔ cs <+: t := by
    intro cs
    rw [cons_prefix_cons]
    exact and_iff_right rfl
  rw [editPath, hhere, htake, hdrop 2, hdrop 1]
  simp only [hstarts]
  rfl

theorem editPath_empty (hcs : cs ≠ []) :
    editPath (A ++ join '/' ([] :: cs)) A.length d = A ++ join '/' cs := by
  obtain ⟨c, cs, rfl⟩ := exists_cons_of_ne_nil hcs
  rw [join_cons, nil_append, editPath_slash, join_cons]
  simp

theorem editPath_last : editPath (A ++ join '/' [[]]) A.length d = A ++ join '/' [[]] := by
  rw [join_cons, editPath_slash]
  simp

theorem editPath_dot : editPath (A ++ join '/' (['.'] :: cs)) A.length d = A ++ join '/' cs := by
  rw [join_cons, editPath_slash]
  cases cs with
  | nil => simp
  | cons c cs => simp [join_cons]

theorem editPath_up (A : List Char) (cs : List (List Char)) (d : ℕ) :
    editPath (A ++ join '/' (['.', '.'] :: cs)) A.length d =
      editParent (A ++ join '/' (['.', '.'] :: cs)) A.length d (if cs = [] then 1 else 0) := by
  rw [join_cons, editPath_slash]
  cases cs with
  | nil => simp
  | cons c cs => simp [join_cons]

theorem editPath_name (hne : c ≠ []) (hdot : c.head? ≠ some '.') (hslash : '/' ∉ c) :
    editPath (A ++ join '/' (c :: cs)) A.length d = A ++ join '/' (c :: cs) := by
  obtain ⟨a, c, rfl⟩ := exists_cons_of_ne_nil hne
  have hdot' : '.' ≠ a := by
    rintro rfl
    exact hdot rfl
  have hslash' : '/' ≠ a := by
    rintro rfl
    exact hslash mem_cons_self
  rw [join_cons, editPath_slash]
  simp [cons_prefix_cons, hdot', hslash']

theorem drop_up (A : List Char) (cs : List (List Char)) :
    (A ++ join '/' (['.', '.'] :: cs)).drop (A.length + 3) = join '/' cs := by
  rw [← drop_drop, drop_left]
  rfl

theorem editParent_first (hd : d < 2) :
    editParent (A ++ join '/' (['.', '.'] :: cs)) A.length d keep = A ++ join '/' cs := by
  rw [editParent, if_pos hd, drop_up, take_left]

theorem editParent_second (hd : ¬d < 2) (hx : '/' ∉ x) {t : List Char} :
    editParent (('/' :: x) ++ t) ('/' :: x).length d keep = ('/' :: x) ++ t := by
  have hnone : lastSlash (('/' :: x) ++ t) (('/' :: x).length - 1) = none := by
    apply lastSlash_eq_none
    intro y hlo hhi
    rw [length_cons, Nat.add_sub_cancel] at hhi
    exact getD_part_ne hx [] t (by simpa using hlo) (by simpa using hhi)
  rw [editParent, if_neg hd, hnone]

theorem editParent_later (hd : ¬d < 2) (hA : A ≠ []) (hx : '/' ∉ x) :
    editParent ((A ++ '/' :: x) ++ join '/' (['.', '.'] :: cs)) (A ++ '/' :: x).length d keep =
      ((A ++ '/' :: x) ++ join '/' (['.', '.'] :: cs)).take (A.length + keep) ++ join '/' cs := by
  have hassoc : (A ++ '/' :: x) ++ join '/' (['.', '.'] :: cs) =
      A ++ '/' :: (x ++ join '/' (['.', '.'] :: cs)) := by simp
  have hsome : lastSlash ((A ++ '/' :: x) ++ join '/' (['.', '.'] :: cs))
      ((A ++ '/' :: x).length - 1) = some A.length := by
    rw [hassoc]
    apply lastSlash_eq_some (length_pos_iff.mpr hA) (getD_slash _ _)
    · simp
    · intro y hlo hhi
      exact getD_part_ne hx A _ hlo (by simp at hhi; omega)
  rw [editParent, if_neg hd, hsome]
  rw [drop_up]

end Edits

section Walk
variable {c : List Char} {st cs out : List (List Char)} {d k : ℕ}

theorem scan_slash (A c : List Char) (cs : List (List Char)) (d : ℕ) :
    scan (A ++ join '/' (c :: cs)) A.length d =
      scan (editPath (A ++ join '/' (c :: cs)) A.length (d + 1)) (A.length + 1) (d + 1) := by
  have hlt : A.length < (A ++ join '/' (c :: cs)).length := by simp [join_cons]
  rw [scan_step hlt, join_cons]
  rw [if_pos (getD_slash A _)]

variable {i : ℕ} {x y : List Char}

theorem scan_part (A : List Char) (cs : List (List Char)) (d : ℕ) (hc : '/' ∉ c)
    (hlo : A.length < i) (hhi : i ≤ A.length + 1 + c.length) : scan (A ++ join '/' (c :: cs)) i d =
      scan ((A ++ '/' :: c) ++ join '/' cs) (A ++ '/' :: c).length d := by
  have hassoc : (A ++ '/' :: c) ++ join '/' cs = A ++ '/' :: (c ++ join '/' cs) := by simp
  rw [hassoc, join_cons]
  apply scan_skip
  · simp
    omega
  · intro y hy hy'
    exact getD_part_ne hc A _ (by omega) (by simp at hy'; omega)

theorem join_reverse_cons (c : List Char) (st : List (List Char)) :
    join '/' (c :: st).reverse = join '/' st.reverse ++ '/' :: c := by
  rw [reverse_cons, join_concat]

def ScansTo (cs out : List (List Char)) (st : List (List Char)) (k d : ℕ) : Prop :=
  scan (join '/' st.reverse ++ join '/' cs) ((join '/' st.reverse).length + k) d = join '/' out

def SlashCount (st : List (List Char)) (k d : ℕ) : Prop := if st = [] ∧ k = 0 then d = 0 else 0 < d

theorem slashCount_succ (st : List (List Char)) (k d : ℕ) : SlashCount st (k + 1) (d + 1) := by
  unfold SlashCount
  rw [if_neg (by omega)]
  omega

theorem slashCount_cons (c : List Char) (st : List (List Char)) (k d : ℕ) :
    SlashCount (c :: st) k (d + 1) := by
  unfold SlashCount
  rw [if_neg (by simp)]
  omega

theorem SlashCount.pos (h : SlashCount st k d) (hst : st ≠ [] ∨ k ≠ 0) : 0 < d := by
  unfold SlashCount at h
  rwa [if_neg (by tauto)] at h

section
variable (hx : '/' ∉ x) (hd : 0 < d)
include hx hd

theorem scansTo_up_second (ih : ScansTo cs out [['.', '.'], x] 0 (d + 1)) :
    ScansTo (['.', '.'] :: cs) out [x] 0 d := by
  have hA : join '/' [x].reverse = '/' :: x := by simp [join_cons]
  unfold ScansTo at *
  rw [join_reverse_cons, hA] at ih
  rw [add_zero, scan_slash, editPath_up, hA, editParent_second (by omega) hx,
    scan_part _ _ _ (by decide) (by omega) (by simp), ← ih]
  rfl

theorem scansTo_up (hcs : cs ≠ []) (ih : ScansTo cs out (y :: st) (x.length + 2) (d + 1)) :
    ScansTo (['.', '.'] :: cs) out (x :: y :: st) 0 d := by
  have hne : join '/' (y :: st).reverse ≠ [] := by
    rw [Ne, join_eq_nil_iff]
    simp
  unfold ScansTo at *
  rw [add_zero, scan_slash, editPath_up, if_neg hcs, join_reverse_cons,
    editParent_later (by omega) hne hx, add_zero, append_assoc, take_left, ← ih]
  congr 1
  rw [length_append, length_cons]
  omega

theorem scansTo_up_last : ScansTo [['.', '.']] ([] :: y :: st).reverse (x :: y :: st) 0 d := by
  have hne : join '/' (y :: st).reverse ≠ [] := by
    rw [Ne, join_eq_nil_iff]
    simp
  unfold ScansTo
  rw [add_zero, scan_slash, editPath_up, if_pos rfl, join_reverse_cons x,
    editParent_later (by omega) hne hx, append_assoc, take_length_add_append, join_nil,
    append_nil, join_reverse_cons []]
  exact scan_done (by simp)

end

theorem scansTo_keep (hc : '/' ∉ c) (hlo : (join '/' st.reverse).length < i)
    (hhi : i ≤ (join '/' st.reverse).length + 1 + c.length) (ih : ScansTo cs out (c :: st) 0 d) :
    scan (join '/' st.reverse ++ join '/' (c :: cs)) i d = join '/' out := by
  unfold ScansTo at ih
  rw [join_reverse_cons] at ih
  rw [scan_part _ _ _ hc hlo hhi]
  exact ih

theorem scansTo_skip (hc : '/' ∉ c) (ih : ScansTo cs out (c :: st) (k - c.length) d) :
    ScansTo (c :: cs) out st (k + 1) d := by
  rcases lt_or_ge k c.length with hlt | hge
  · rw [Nat.sub_eq_zero_of_le hlt.le] at ih
    exact scansTo_keep hc (by omega) (by omega) ih
  · unfold ScansTo at *
    have hassoc : (join '/' st.reverse ++ '/' :: c) ++ join '/' cs =
        join '/' st.reverse ++ join '/' (c :: cs) := by simp [join_cons]
    rw [join_reverse_cons, hassoc] at ih
    rw [← ih]
    congr 1
    simp
    omega

theorem scansTo_slash : ScansTo (c :: cs) out st 0 d ↔
    scan (editPath (join '/' st.reverse ++ join '/' (c :: cs)) (join '/' st.reverse).length (d + 1))
      ((join '/' st.reverse).length + 1) (d + 1) = join '/' out := by
  rw [ScansTo, add_zero, scan_slash]

theorem scan_walkParts (hst : ∀ c ∈ st, '/' ∉ c) (hcs : ∀ c ∈ cs, '/' ∉ c) (hd : SlashCount st k d)
    (hwalk : walkParts st k cs = some out) : ScansTo cs out st k d := by
  fun_induction walkParts st k cs generalizing d with
  | case1 st k =>
    rw [← Option.some.inj hwalk, ScansTo, join_nil, append_nil]
    exact scan_done (by omega)
  | case2 st k c cs ih =>
    rw [forall_mem_cons] at hcs
    obtain ⟨d, rfl⟩ := exists_eq_succ_of_ne_zero (hd.pos (Or.inr k.succ_ne_zero)).ne'
    have hst' : ∀ e ∈ c :: st, '/' ∉ e := forall_mem_cons.mpr ⟨hcs.1, hst⟩
    exact scansTo_skip hcs.1 (ih hst' hcs.2 (slashCount_cons c st _ d) hwalk)
  | case3 st =>
    rw [scansTo_slash, editPath_last, ← Option.some.inj hwalk, reverse_cons, join_append]
    exact scan_done (by simp [join_cons])
  | case4 st cs hlast ih =>
    rw [scansTo_slash, editPath_empty hlast]
    exact ih hst (forall_mem_cons.mp hcs).2 (slashCount_succ st 0 d) hwalk
  | case5 st cs _ ih =>
    rw [scansTo_slash, editPath_dot]
    exact ih hst (forall_mem_cons.mp hcs).2 (slashCount_succ st 0 d) hwalk
  | case6 cs _ _ ih =>
    have hzero : d = 0 := hd
    rw [scansTo_slash, editPath_up, editParent_first (by omega)]
    exact ih hst (forall_mem_cons.mp hcs).2 (slashCount_succ [] 0 d) hwalk
  | case7 cs x _ _ ih =>
    rw [forall_mem_cons] at hcs
    refine scansTo_up_second (hst x mem_cons_self) (hd.pos (Or.inl (cons_ne_nil _ _))) ?_
    exact ih (forall_mem_cons.mpr ⟨hcs.1, hst⟩) hcs.2 (slashCount_cons _ _ 0 d) hwalk
  | case8 x y st =>
    rw [← Option.some.inj hwalk]
    exact scansTo_up_last (hst x mem_cons_self) (hd.pos (Or.inl (cons_ne_nil _ _)))
  | case9 cs x y st hlast _ _ ih =>
    rw [forall_mem_cons] at hst hcs
    refine scansTo_up hst.1 (hd.pos (Or.inl (cons_ne_nil _ _))) hlast ?_
    exact ih hst.2 hcs.2 (slashCount_cons y st _ d) hwalk
  | case10 => cases hwalk
  | case11 st c cs hne _ _ hhead ih =>
    rw [forall_mem_cons] at hcs
    rw [scansTo_slash, editPath_name hne hhead hcs.1]
    have hst' : ∀ e ∈ c :: st, '/' ∉ e := forall_mem_cons.mpr ⟨hcs.1, hst⟩
    have hrest := ih hst' hcs.2 (slashCount_cons c st 0 d) hwalk
    exact scansTo_keep hcs.1 (by omega) (by omega) hrest

theorem walkParts_forall {P : List Char → Prop} (hnil : P []) (hst : ∀ c ∈ st, P c)
    (hcs : ∀ c ∈ cs, P c) (hwalk : walkParts st k cs = some out) : ∀ c ∈ out, P c := by
  have hdone : ∀ l : List (List Char), (∀ c ∈ l, P c) → some l.reverse = some out →
      ∀ c ∈ out, P c := by
    intro l hl hout c hc
    rw [← Option.some.inj hout] at hc
    exact hl c (mem_reverse.mp hc)
  fun_induction walkParts st k cs with
  | case1 => exact hdone _ hst hwalk
  | case2 _ _ _ _ ih | case7 _ _ _ _ ih | case11 _ _ _ _ _ _ _ ih =>
    rw [forall_mem_cons] at hcs
    exact ih (forall_mem_cons.mpr ⟨hcs.1, hst⟩) hcs.2 hwalk
  | case3 => exact hdone _ (forall_mem_cons.mpr ⟨hnil, hst⟩) hwalk
  | case4 _ _ _ ih | case5 _ _ _ ih | case6 _ _ _ ih =>
    exact ih hst (forall_mem_cons.mp hcs).2 hwalk
  | case8 =>
    exact hdone _ (forall_mem_cons.mpr ⟨hnil, (forall_mem_cons.mp hst).2⟩) hwalk
  | case9 _ _ _ _ _ _ _ ih =>
    exact ih (forall_mem_cons.mp hst).2 (forall_mem_cons.mp hcs).2 hwalk
  | case10 => cases hwalk

end Walk

end GarnOS
