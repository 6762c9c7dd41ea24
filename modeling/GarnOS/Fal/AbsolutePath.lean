import GarnOS.Fal.PathBounds
import GarnOS.Fal.PathWalk

/-! Path normalisation: what should become of the components of a path, and for which paths
`vnode_get_absolute_path` does it. -/
namespace GarnOS
open Outcome Separated List

/-- Empty components and `.` are dropped. `..` drops the component before it, if there is one. -/
def resolvePart (stack : List (List Char)) (c : List Char) : List (List Char) :=
  if c = [] ∨ c = ['.'] then stack else if c = ['.', '.'] then stack.tail else c :: stack

def resolvePath (p : List Char) : List (List Char) :=
  ((p.splitOn '/').foldl resolvePart []).reverse

/-- The path that is meant by `relative` in the directory `root`. -/
def joinedPath (root relative : List Char) : List Char :=
  if relative.getD 0 NUL = '/' then relative else root ++ relative

def Normalised (root relative s : List Char) : Prop :=
  s.head? = some '/' ∧ pieces '/' s = resolvePath (joinedPath root relative)

/-- The components of the path in the buffer. Behind `root` and `relative` the source puts another
slash. -/
def pathParts (root relative : List Char) : List (List Char) :=
  (if relative.getD 0 NUL = '/' then relative else root ++ relative ++ ['/']).tail.splitOn '/'

/-- The paths that come out right: the loop is at the slash of every `.` and `..`, a `..` has a
component before it that is not the first one, or stands first, and no component that only starts
with a dot is met at its slash. -/
def Handled : List (List Char) → ℕ → List (List Char) → Prop
  | _, _, [] => True
  | st, k + 1, c :: cs => c ≠ ['.'] ∧ c ≠ ['.', '.'] ∧ Handled (c :: st) (k - c.length) cs
  | st, 0, c :: cs =>
    if c = [] then Handled st 1 cs
    else if c = ['.'] then (cs = [] → st ≠ []) ∧ Handled st 1 cs
    else if c = ['.', '.'] then
      match st with
      | [] => cs ≠ [] ∧ Handled [] 1 cs
      | [_] => False
      | x :: y :: st => x ≠ [] ∧ Handled (y :: st) (x.length + 2) cs
    else c.head? ≠ some '.' ∧ Handled (c :: st) 0 cs

/-- Only the last component may be empty, and only `.` and `..` start with a dot. -/
def PlainParts : List (List Char) → Prop
  | [] => True
  | c :: cs =>
    (c = [] → cs = []) ∧ (c.head? = some '.' → c = ['.'] ∨ c = ['.', '.']) ∧ PlainParts cs

section Equations
variable {c : List Char} {st cs : List (List Char)}

theorem handled_nil (st : List (List Char)) (k : ℕ) : Handled st k [] := by
  cases k with
  | zero | succ k => trivial

theorem handled_last (st : List (List Char)) (k : ℕ) : Handled st k [[]] := by
  cases k with
  | zero => exact handled_nil st 1
  | succ k => exact ⟨by decide, by decide, handled_nil _ _⟩

theorem handled_other (hne : c ≠ []) (hdot : c ≠ ['.']) (hup : c ≠ ['.', '.']) :
    Handled st 0 (c :: cs) = (c.head? ≠ some '.' ∧ Handled (c :: st) 0 cs) :=
  (if_neg hne).trans ((if_neg hdot).trans (if_neg hup))

section
variable (stack : List (List Char))
include stack

theorem resolvePart_empty : resolvePart stack [] = stack := rfl

theorem resolvePart_up : resolvePart stack ['.', '.'] = stack.tail := rfl

end

theorem resolvePart_name (hne : c ≠ []) (hdot : c ≠ ['.']) (hup : c ≠ ['.', '.'])
    (stack : List (List Char)) : resolvePart stack c = c :: stack := by
  unfold resolvePart
  rw [if_neg (not_or.mpr ⟨hne, hdot⟩), if_neg hup]

theorem length_resolvePart_le (stack : List (List Char)) (c : List Char) :
    (resolvePart stack c).length ≤ stack.length + 1 := by
  unfold resolvePart
  split
  · omega
  · split
    · rw [length_tail]
      omega
    · exact le_rfl

theorem length_tail_lt {stack : List (List Char)} {x y : List Char}
    (hlt : stack.length < (x :: y :: st).length) :
    (resolvePart stack ['.', '.']).length < (y :: st).length := by
  rw [length_cons, length_cons] at hlt
  rw [resolvePart_up, length_tail, length_cons]
  omega

end Equations

def names (cs : List (List Char)) : List (List Char) := cs.filter (· ≠ [])

section Names
variable {c : List Char} {st cs : List (List Char)}

theorem names_cons_empty : names ([] :: cs) = names cs := rfl

theorem names_cons (hc : c ≠ []) : names (c :: cs) = c :: names cs := by
  unfold names
  rw [filter_cons_of_pos (by simpa using hc)]

theorem names_reverse (cs : List (List Char)) : names cs.reverse = (names cs).reverse := by
  unfold names
  rw [filter_reverse]

theorem names_reverse_cons_empty : names ([] :: cs).reverse = (names cs).reverse := by
  rw [names_reverse, names_cons_empty]

theorem length_names (hst : ∀ x ∈ st, x ≠ []) : (names st).length = st.length := by
  have hall : names st = st := filter_eq_self.mpr fun x hx => by simpa using hst x hx
  rw [hall]

end Names

section Right
variable {st cs : List (List Char)} {k : ℕ}

theorem Handled.walk (h : Handled st k cs) : ∃ out, walkParts st k cs = some out ∧
    (st ≠ [] ∨ cs ≠ [] → out ≠ []) ∧ names out = (cs.foldl resolvePart (names st)).reverse := by
  fun_induction walkParts st k cs with
  | case1 st => exact ⟨st.reverse, rfl, by simp, names_reverse st⟩
  | case2 st k c cs ih =>
    obtain ⟨hdot, hup, h⟩ := h
    obtain ⟨out, hwalk, hne, hnames⟩ := ih h
    refine ⟨out, hwalk, fun _ => hne (Or.inl (cons_ne_nil _ _)), ?_⟩
    rw [foldl_cons, hnames]
    by_cases hempty : c = []
    · rw [hempty, names_cons_empty, resolvePart_empty]
    · rw [names_cons hempty, resolvePart_name hempty hdot hup]
  | case3 => exact ⟨_, rfl, by simp, names_reverse_cons_empty⟩
  | case4 st cs hlast ih =>
    obtain ⟨out, hwalk, hne, hnames⟩ := ih h
    exact ⟨out, hwalk, fun _ => hne (Or.inr hlast), hnames⟩
  | case5 st cs _ ih =>
    obtain ⟨hfirst, h⟩ := h
    obtain ⟨out, hwalk, hne, hnames⟩ := ih h
    refine ⟨out, hwalk, fun _ => hne ?_, hnames⟩
    by_cases hlast : cs = []
    · exact Or.inl (hfirst hlast)
    · exact Or.inr hlast
  | case6 cs _ _ ih =>
    obtain ⟨hlast, h⟩ := h
    obtain ⟨out, hwalk, hne, hnames⟩ := ih h
    exact ⟨out, hwalk, fun _ => hne (Or.inr hlast), hnames⟩
  | case7 => exact h.elim
  | case8 x y st =>
    rw [foldl_cons, names_cons h.1, resolvePart_up, tail_cons]
    exact ⟨_, rfl, by simp, names_reverse_cons_empty⟩
  | case9 cs x y st hlast _ _ ih =>
    obtain ⟨hx, h⟩ := h
    obtain ⟨out, hwalk, hne, hnames⟩ := ih h
    rw [foldl_cons, names_cons hx, resolvePart_up, tail_cons]
    exact ⟨out, hwalk, fun _ => hne (Or.inr hlast), hnames⟩
  | case10 st c cs hempty hdot hup hhead =>
    rw [handled_other hempty hdot hup] at h
    exact absurd hhead h.1
  | case11 st c cs hempty hdot hup hhead ih =>
    rw [handled_other hempty hdot hup] at h
    obtain ⟨out, hwalk, hne, hnames⟩ := ih h.2
    rw [foldl_cons, resolvePart_name hempty hdot hup, ← names_cons hempty]
    exact ⟨out, hwalk, fun _ => hne (Or.inl (cons_ne_nil _ _)), hnames⟩

end Right

section Wrong
variable {c : List Char} {st cs out stack : List (List Char)} {k : ℕ}

section
variable (h : PlainParts (c :: cs))
include h

theorem PlainParts.tail : PlainParts cs := h.2.2

theorem PlainParts.not_hidden (hdot : c ≠ ['.']) (hup : c ≠ ['.', '.']) :
    c.head? ≠ some '.' := fun hhead => absurd (h.2.1 hhead) (not_or.mpr ⟨hdot, hup⟩)

theorem PlainParts.nonempty (hcs : cs ≠ []) : c ≠ [] := fun hc =>
  hcs (h.1 hc)

end

theorem length_names_reverse (hst : ∀ x ∈ st, x ≠ []) (hout : some ([] :: st).reverse = some out) :
    (names out).length = st.length := by
  rw [← Option.some.inj hout, names_reverse_cons_empty, length_reverse, length_names hst]

theorem walkParts_longer (hplain : PlainParts cs) (hst : ∀ x ∈ st, x ≠ [])
    (hlt : stack.length < st.length) (hwalk : walkParts st k cs = some out) :
    (cs.foldl resolvePart stack).length < (names out).length := by
  have hpush : ∀ (stack st : List (List Char)) c, stack.length < st.length →
      (resolvePart stack c).length < (c :: st).length := fun stack st c hlt =>
    (length_resolvePart_le stack c).trans_lt (Nat.succ_lt_succ hlt)
  fun_induction walkParts st k cs generalizing stack with
  | case1 =>
    rw [← Option.some.inj hwalk, names_reverse, length_reverse, length_names hst]
    exact hlt
  | case2 st k c cs ih =>
    by_cases hempty : c = []
    · -- the path ends with a slash
      subst hempty
      rw [hplain.1 rfl, walkParts_nil] at hwalk
      rw [hplain.1 rfl, length_names_reverse hst hwalk]
      exact hlt
    · exact ih hplain.tail (forall_mem_cons.mpr ⟨hempty, hst⟩) (hpush _ _ c hlt) hwalk
  | case3 =>
    rw [length_names_reverse hst hwalk]
    exact hlt
  | case4 st cs hlast => exact absurd rfl (hplain.nonempty hlast)
  | case5 st cs _ ih => exact ih hplain.tail hst hlt hwalk
  | case6 => exact absurd hlt (Nat.not_lt_zero _)
  | case7 cs x hempty _ ih =>
    exact ih hplain.tail (forall_mem_cons.mpr ⟨hempty, hst⟩) (hpush _ _ _ hlt) hwalk
  | case8 x y st =>
    rw [length_names_reverse (forall_mem_cons.mp hst).2 hwalk]
    exact length_tail_lt hlt
  | case9 cs x y st _ _ _ ih =>
    exact ih hplain.tail (forall_mem_cons.mp hst).2 (length_tail_lt hlt) hwalk
  | case10 => cases hwalk
  | case11 st c cs hempty _ _ _ ih =>
    exact ih hplain.tail (forall_mem_cons.mpr ⟨hempty, hst⟩) (hpush _ _ c hlt) hwalk

theorem walkParts_unhandled (hplain : PlainParts cs) (hst : ∀ x ∈ st, x ≠ [])
    (hwalk : walkParts st k cs = some out) (hnot : ¬Handled st k cs) :
    out = [] ∨ (cs.foldl resolvePart st).length < (names out).length := by
  fun_induction walkParts st k cs with
  | case1 => exact absurd (handled_nil _ _) hnot
  | case2 st k c cs ih =>
    by_cases hempty : c = []
    · rw [hempty, hplain.1 hempty] at hnot
      exact absurd (handled_last st _) hnot
    have hst' : ∀ x ∈ c :: st, x ≠ [] := forall_mem_cons.mpr ⟨hempty, hst⟩
    rw [foldl_cons]
    by_cases hdots : c = ['.'] ∨ c = ['.', '.']
    · -- a component that should not be kept is skipped
      refine Or.inr (walkParts_longer hplain.tail hst' ?_ hwalk)
      rcases hdots with rfl | rfl
      · exact Nat.lt_succ_self _
      · simp [resolvePart_up]
    · rw [not_or] at hdots
      rw [resolvePart_name hempty hdots.1 hdots.2]
      exact ih hplain.tail hst' hwalk fun h => hnot ⟨hdots.1, hdots.2, h⟩
  | case3 => exact absurd (handled_last _ _) hnot
  | case4 st cs hlast => exact absurd rfl (hplain.nonempty hlast)
  | case5 st cs _ ih =>
    by_cases hright : Handled st 1 cs
    · -- the path is `/.`
      have hfirst : ¬(cs = [] → st ≠ []) := fun h => hnot ⟨h, hright⟩
      rw [Classical.not_imp, not_not] at hfirst
      rw [hfirst.1, hfirst.2, walkParts_nil] at hwalk
      exact Or.inl (Option.some.inj hwalk).symm
    · exact ih hplain.tail hst hwalk hright
  | case6 cs _ _ ih =>
    by_cases hend : cs = []
    · rw [hend, walkParts_nil] at hwalk
      exact Or.inl (Option.some.inj hwalk).symm
    · exact ih hplain.tail hst hwalk fun h => hnot ⟨hend, h⟩
  | case7 cs x hempty _ ih =>
    have hst' : ∀ e ∈ [['.', '.'], x], e ≠ [] := forall_mem_cons.mpr ⟨hempty, hst⟩
    rw [foldl_cons]
    exact Or.inr (walkParts_longer hplain.tail hst' (by simp [resolvePart_up]) hwalk)
  | case8 x y st => exact absurd ⟨hst x mem_cons_self, handled_nil _ _⟩ hnot
  | case9 cs x y st hend _ _ ih =>
    rw [forall_mem_cons] at hst
    exact ih hplain.tail hst.2 hwalk fun h => hnot ⟨hst.1, h⟩
  | case10 => cases hwalk
  | case11 st c cs hempty hdot hup hhead ih =>
    rw [handled_other hempty hdot hup] at hnot
    rw [foldl_cons, resolvePart_name hempty hdot hup]
    exact ih hplain.tail (forall_mem_cons.mpr ⟨hempty, hst⟩) hwalk fun h => hnot ⟨hhead, h⟩

theorem walkParts_plain (hplain : PlainParts cs) (st : List (List Char)) (k : ℕ) :
    ∃ out, walkParts st k cs = some out := by
  fun_induction walkParts st k cs with
  | case1 | case3 | case8 => exact ⟨_, rfl⟩
  | case2 _ _ _ _ ih | case4 _ _ _ ih | case5 _ _ _ ih | case6 _ _ _ ih | case7 _ _ _ _ ih
  | case9 _ _ _ _ _ _ _ ih | case11 _ _ _ _ _ _ _ ih => exact ih hplain.tail
  | case10 _ _ _ _ hdot hup hhead => exact absurd hhead (hplain.not_hidden hdot hup)

end Wrong

section Paths
variable {root rel : List Char}

def bufferPath (root relative : List Char) : List Char :=
  if relative.getD 0 NUL = '/' then relative else root ++ relative ++ ['/']

variable (hroot : root.head? = some '/')
include hroot

theorem bufferPath_eq_cons : bufferPath root rel = '/' :: (bufferPath root rel).tail := by
  unfold bufferPath
  split
  · rename_i habs
    cases rel with
    | nil => cases habs
    | cons a rel =>
      rw [show a = '/' from habs]
      rfl
  · cases root with
    | nil => cases hroot
    | cons a root =>
      rw [show a = '/' from Option.some.inj hroot]
      rfl

theorem join_pathParts : join '/' (pathParts root rel) = bufferPath root rel := by
  rw [pathParts, join_splitOn, ← bufferPath, ← bufferPath_eq_cons hroot]

theorem resolvePath_joined : resolvePath (joinedPath root rel) =
      ((pathParts root rel).foldl resolvePart []).reverse := by
  have hfirst : ∀ p, resolvePath ('/' :: p) = ((p.splitOn '/').foldl resolvePart []).reverse := by
    intro p
    have hsplit := splitOn_append_cons_self (a := '/') [] p
    rw [nil_append, splitOn_nil] at hsplit
    rw [resolvePath, hsplit]
    rfl
  unfold joinedPath pathParts
  split
  · rename_i habs
    cases rel with
    | nil => cases habs
    | cons a rel =>
      rw [show a = '/' from habs, hfirst]
      rfl
  · cases root with
    | nil => cases hroot
    | cons a root =>
      rw [show a = '/' from Option.some.inj hroot, cons_append, hfirst, cons_append,
        tail_cons, splitOn_append_cons_self, foldl_append, splitOn_nil]
      rfl

theorem normalised_iff {out : List (List Char)}
    (hwalk : walkParts [] 0 (pathParts root rel) = some out) :
    Normalised root rel (scan (bufferPath root rel) 0 0) ↔
      out ≠ [] ∧ names out = ((pathParts root rel).foldl resolvePart []).reverse := by
  have hparts : ∀ c ∈ pathParts root rel, '/' ∉ c := fun c hc => not_mem_of_mem_splitOn hc
  have hscan : scan (bufferPath root rel) 0 0 = join '/' out := by
    have hstart : SlashCount [] 0 0 := rfl
    have hto := scan_walkParts (by simp) hparts hstart hwalk
    rw [ScansTo, join_pathParts hroot] at hto
    exact hto
  have hout := walkParts_forall (P := fun c => '/' ∉ c) not_mem_nil (by simp) hparts hwalk
  rw [Normalised, hscan, pieces_join hout, resolvePath_joined hroot]
  have hhead : (join '/' out).head? = some '/' ↔ out ≠ [] := by
    cases out with
    | nil => simp
    | cons c out => simp [join_cons]
  rw [hhead]
  rfl

theorem Handled.normalised (h : Handled [] 0 (pathParts root rel)) :
    Normalised root rel (scan (bufferPath root rel) 0 0) := by
  obtain ⟨out, hwalk, hne, hnames⟩ := h.walk
  exact (normalised_iff hroot hwalk).mpr ⟨hne (Or.inr (splitOn_ne_nil _ _)), hnames⟩

theorem Normalised.handled (hplain : PlainParts (pathParts root rel))
    (h : Normalised root rel (scan (bufferPath root rel) 0 0)) :
    Handled [] 0 (pathParts root rel) := by
  obtain ⟨out, hwalk⟩ := walkParts_plain hplain [] 0
  obtain ⟨hne, hnames⟩ := (normalised_iff hroot hwalk).mp h
  by_contra hnot
  rcases walkParts_unhandled hplain (by simp) hwalk hnot with hempty | hlonger
  · exact hne hempty
  · rw [hnames, length_reverse] at hlonger
    exact lt_irrefl _ hlonger

end Paths

/-- `vnode_get_absolute_path` returns a string for all paths that are short enough. It is the normal
form of the path if the components are `Handled`, and only then if they are plain. -/
theorem absolute_path_normalised (root relative : CString) (hroot : root.chars.head? = some '/')
    (hslash : root.chars.getLast? = some '/')
    (hsize : root.chars.length + relative.chars.length < PATH_MAX) (buf : PathBuf) :
    ∃ b s, vnodeGetAbsolutePath buf root relative = .ok (some b, 0) ∧ b.Holds s ∧
      (Handled [] 0 (pathParts root.chars relative.chars) →
        Normalised root.chars relative.chars s) ∧
      (PlainParts (pathParts root.chars relative.chars) → Normalised root.chars relative.chars s →
        Handled [] 0 (pathParts root.chars relative.chars)) := by
  have hlen : root.strlen = root.chars.length ∧ relative.strlen = relative.chars.length := by
    unfold CString.strlen
    unfold PATH_MAX at hsize
    omega
  have hpos : 0 < root.chars.length := by
    apply length_pos_iff.mpr
    intro hnil
    rw [hnil] at hroot
    cases hroot
  have hsum : (root.strlen + relative.strlen) % 2 ^ 32 ≤ PATH_MAX := by
    rw [hlen.1, hlen.2]
    exact (Nat.mod_le _ _).trans hsize.le
  have hcall : ∃ b, vnodeGetAbsolutePath buf root relative = .ok (some b, 0) ∧
      b.Holds (scan (bufferPath root.chars relative.chars) 0 0) := by
    unfold bufferPath
    split
    · rename_i habs
      obtain ⟨r, hr, b, rfl, hb⟩ :=
        (absolutePath_absolute_post buf hsum habs (by omega)).returns
      rw [scanPath_eq_scan (by omega)] at hb
      exact ⟨b, hr, hb⟩
    · rename_i hrel
      have hends : ¬NeedsSlash root := by
        rw [getLast?_eq_getElem?] at hslash
        rw [NeedsSlash, hlen.1, getD_eq_getElem?_getD, hslash]
        exact fun hne => hne rfl
      obtain ⟨r, hr, b, rfl, hb⟩ :=
        (absolutePath_relative_post buf hsum hrel (by omega) hends (by omega)).returns
      rw [hlen.1, take_length, scanPath_eq_scan (by simp; omega)] at hb
      exact ⟨b, hr, hb⟩
  obtain ⟨b, hr, hb⟩ := hcall
  exact ⟨b, _, hr, hb, Handled.normalised hroot, Normalised.handled hroot⟩

def secondParent : CString := ⟨['a', '/', 'b', '/', '.', '.', '/', 'c'], by decide, by decide⟩

theorem absolute_path_normalised_second : ∃ b s,
    vnodeGetAbsolutePath staleBuf slashPath secondParent = .ok (some b, 0) ∧ b.Holds s ∧
      Normalised slashPath.chars secondParent.chars s := by
  obtain ⟨b, s, hcall, hb, hnormal, -⟩ := absolute_path_normalised slashPath secondParent rfl rfl
    (by decide) staleBuf
  have hparts : pathParts slashPath.chars secondParent.chars =
      [['a'], ['b'], ['.', '.'], ['c'], []] := by decide
  refine ⟨b, s, hcall, hb, hnormal ?_⟩
  rw [hparts]
  simp [Handled]

def firstParent : CString := ⟨['a', '/', '.', '.', '/', 'b'], by decide, by decide⟩

/-- `/a/../b/` is left as it is. -/
theorem absolute_path_normalised_first : ∃ b,
    vnodeGetAbsolutePath staleBuf slashPath firstParent = .ok (some b, 0) ∧
      b.Holds ['/', 'a', '/', '.', '.', '/', 'b', '/'] ∧
      ¬Normalised slashPath.chars firstParent.chars ['/', 'a', '/', '.', '.', '/', 'b', '/'] := by
  have hpost : Post (vnodeGetAbsolutePath staleBuf slashPath firstParent) _ _ :=
    absolutePath_relative_post staleBuf (by decide) (by decide) (by decide) (by decide) (by decide)
  obtain ⟨r, hr, b, rfl, hb⟩ := hpost.returns
  refine ⟨b, hr, hb, fun h => ?_⟩
  exact absurd h.2 (by decide)

end GarnOS
