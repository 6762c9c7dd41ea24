import GarnOS.Mem.CharBuf

/-! `vnode_get_absolute_path` on its buffer, and the string it computes. The `kmalloc` of the buffer
is left out: what the block contains is a parameter. -/
namespace GarnOS
open Outcome Terminated List

def PATH_MAX : ℕ := 4096
def ENAMETOOLONG : ℤ := 91

abbrev PathBuf := CharBuf (PATH_MAX + 1)

/-- The loop `for(int j = i-1; j > 0; j--)`: the last slash up to `j`, but not the first
character. -/
def findSlash (b : PathBuf) : ℕ → Except Fault (Option ℕ)
  | 0 => .ok none
  | j + 1 => do if (← b.read (j + 1)) = '/' then return some (j + 1) else findSlash b j

def cutBuf (b : PathBuf) (i j : ℕ) : Except Fault PathBuf := do
  b.memcpy i j (((← b.strlen j) + 1) % 2 ^ 32)

/-- The branches for `..`: what is cut starts at `i`, or at the slash found before it. -/
def cutParent (b : PathBuf) (i dirindex keep : ℕ) : Except Fault PathBuf :=
  if dirindex < 2 then cutBuf b i (i + 3)
  else do
    match ← findSlash b (i - 1) with
    | some j => cutBuf b (j + keep) (i + 3)
    | none => return b

def checkChar (b : PathBuf) (i dirindex : ℕ) : Except Fault PathBuf := do
  if ← b.startsWith ['/', '.', '.', '/'] i then cutParent b i dirindex 0
  else if ← b.startsWith ['/', '.', '.'] i then cutParent b i dirindex 1
  else if ← b.startsWith ['/', '.'] i then cutBuf b i (i + 2)
  else if ← b.startsWith ['/', '/'] i then cutBuf b i (i + 1)
  else return b

/-- The code from the label `checkpath` on. The string never grows. -/
def checkPath : ℕ → PathBuf → ℕ → ℕ → Except Fault PathBuf
  | 0, _, _, _ => .error .diverges
  | fuel + 1, b, i, dirindex => do
    if i < (← b.strlen 0) then
      let dirindex := if (← b.read i) = '/' then dirindex + 1 else dirindex
      checkPath fuel (← checkChar b i dirindex) (i + 1) dirindex
    else return b

def appendRelative (buf : PathBuf) (sptr : ℕ) (relative : CString) :
    Except Fault (Option PathBuf × ℤ) := do
  let buf ← buf.memcpyFrom sptr relative ((relative.strlen + 1) % 2 ^ 32)
  let buf ← buf.strncat '/'
  return (some (← checkPath (PATH_MAX + 2) buf 0 0), 0)

/-- The result, `none` for `NULL`, and `kerrno`. `strlen` and its sums have 32 bits. -/
def vnodeGetAbsolutePath (buf : PathBuf) (root relative : CString) :
    Except Fault (Option PathBuf × ℤ) := do
  let size := (root.strlen + relative.strlen) % 2 ^ 32
  if size > PATH_MAX then return (none, ENAMETOOLONG)
  else if (← relative.read 0) = '/' then
    let buf ← buf.memcpyFrom 0 relative ((relative.strlen + 1) % 2 ^ 32)
    return (some (← checkPath (PATH_MAX + 2) buf 0 0), 0)
  else
    let buf ← buf.memcpyFrom 0 root root.strlen
    let sptr := root.strlen
    if (← root.read (u64 (sptr - 1))) ≠ '/' then
      if size + 1 > PATH_MAX then return (none, ENAMETOOLONG)
      else appendRelative (← buf.write sptr '/') (sptr + 1) relative
    else appendRelative buf sptr relative

def lastSlash (s : List Char) : ℕ → Option ℕ
  | 0 => none
  | j + 1 => if s.getD (j + 1) NUL = '/' then some (j + 1) else lastSlash s j

def editParent (s : List Char) (i dirindex keep : ℕ) : List Char :=
  if dirindex < 2 then s.take i ++ s.drop (i + 3)
  else
    match lastSlash s (i - 1) with
    | some j => s.take (j + keep) ++ s.drop (i + 3)
    | none => s

def editPath (s : List Char) (i dirindex : ℕ) : List Char :=
  if ['/', '.', '.', '/'] <+: s.drop i then editParent s i dirindex 0
  else if ['/', '.', '.'] <+: s.drop i then editParent s i dirindex 1
  else if ['/', '.'] <+: s.drop i then s.take i ++ s.drop (i + 2)
  else if ['/', '/'] <+: s.drop i then s.take i ++ s.drop (i + 1)
  else s

def scanPath : ℕ → List Char → ℕ → ℕ → List Char
  | 0, s, _, _ => s
  | fuel + 1, s, i, dirindex =>
    if i < s.length then
      let dirindex := if s.getD i NUL = '/' then dirindex + 1 else dirindex
      scanPath fuel (editPath s i dirindex) (i + 1) dirindex
    else s

section Strings
variable {s : List Char} {b : PathBuf} {i j dirindex keep : ℕ}

theorem lastSlash_le (h : lastSlash s i = some j) : j ≤ i ∧ 0 < j := by
  induction i with
  | zero => cases h
  | succ i ih =>
    rw [lastSlash] at h
    split at h
    · cases h
      omega
    · have hle := ih h
      omega

theorem length_take_drop_le (s : List Char) (hij : i ≤ j) :
    (s.take i ++ s.drop j).length ≤ s.length := by
  rw [length_append, length_take, length_drop]
  omega

theorem editParent_length_le (s : List Char) (i dirindex : ℕ) (hkeep : keep ≤ 1) :
    (editParent s i dirindex keep).length ≤ s.length := by
  unfold editParent
  split
  · exact length_take_drop_le s (by omega)
  · split
    · rename_i j hj
      have hle := lastSlash_le hj
      exact length_take_drop_le s (by omega)
    · exact le_rfl

theorem editPath_length_le (s : List Char) (i dirindex : ℕ) :
    (editPath s i dirindex).length ≤ s.length := by
  unfold editPath
  split
  · exact editParent_length_le s i dirindex (by decide)
  · split
    · exact editParent_length_le s i dirindex (by decide)
    · split
      · exact length_take_drop_le s (by omega)
      · split
        · exact length_take_drop_le s (by omega)
        · exact le_rfl

theorem add_length_le_of_starts {cs : List Char} (h : cs <+: s.drop i) (hcs : cs ≠ []) :
    i + cs.length ≤ s.length := by
  have hle := h.length_le
  rw [length_drop] at hle
  have hpos := length_pos_iff.mpr hcs
  omega

end Strings

section Refinement
variable {s : List Char} {b : PathBuf} {i j dirindex keep : ℕ}

variable (h : b.Holds s)
include h

theorem CharBuf.Holds.cutBuf (hij : i ≤ j) (hj : j ≤ s.length) :
    Post (GarnOS.cutBuf b i j) (fun b' => b'.Holds (s.take i ++ s.drop j)) (fun _ => False) := by
  have hfits := Terminated.Holds.fits h
  unfold PATH_MAX at hfits
  rw [GarnOS.cutBuf, h.strlen (by decide) hj, ok_bind, Nat.mod_eq_of_lt (by omega)]
  exact h.cut hij hj

theorem CharBuf.Holds.findSlash (hj : j ≤ s.length) :
    GarnOS.findSlash b j = .ok (lastSlash s j) := by
  induction j with
  | zero => rfl
  | succ j ih =>
    rw [GarnOS.findSlash, h.read hj, ok_bind, lastSlash]
    split
    · rfl
    · exact ih (by omega)

theorem CharBuf.Holds.cutParent (hi : i + 3 ≤ s.length) (hkeep : keep ≤ 1) :
    Post (GarnOS.cutParent b i dirindex keep)
      (fun b' => b'.Holds (editParent s i dirindex keep)) (fun _ => False) := by
  unfold GarnOS.cutParent editParent
  split
  · exact h.cutBuf (by omega) hi
  · rw [h.findSlash (by omega), ok_bind]
    cases hslash : lastSlash s (i - 1) with
    | none => exact post_pure.mpr h
    | some j =>
      have hle := lastSlash_le hslash
      exact h.cutBuf (by omega) hi

theorem CharBuf.Holds.ite_startsWith {cs u v : List Char} {x y : Except Fault PathBuf}
    (hcs : NUL ∉ cs) (hne : cs ≠ []) (hi : i ≤ s.length)
    (hx : i + cs.length ≤ s.length → Post x (fun b' => b'.Holds u) fun _ => False)
    (hy : Post y (fun b' => b'.Holds v) fun _ => False) :
    Post (do if ← b.startsWith cs i then x else y)
      (fun b' => b'.Holds (if cs <+: s.drop i then u else v)) fun _ => False := by
  rw [h.startsWith hcs hi, ok_bind]
  by_cases hstarts : cs <+: s.drop i
  · rw [decide_eq_true hstarts, if_pos rfl, if_pos hstarts]
    exact hx (add_length_le_of_starts hstarts hne)
  · rw [decide_eq_false hstarts, if_neg (by decide), if_neg hstarts]
    exact hy

theorem CharBuf.Holds.checkChar (hi : i ≤ s.length) :
    Post (GarnOS.checkChar b i dirindex) (fun b' => b'.Holds (editPath s i dirindex))
      (fun _ => False) := by
  apply h.ite_startsWith (by decide) (by decide) hi
  · exact fun hlen => h.cutParent (by simp at hlen; omega) (by decide)
  apply h.ite_startsWith (by decide) (by decide) hi
  · exact fun hlen => h.cutParent hlen (by decide)
  apply h.ite_startsWith (by decide) (by decide) hi
  · exact fun hlen => h.cutBuf (by omega) hlen
  apply h.ite_startsWith (by decide) (by decide) hi
  · exact fun hlen => h.cutBuf (by omega) (by simp at hlen; omega)
  · exact post_pure.mpr h

theorem CharBuf.Holds.checkPath {fuel : ℕ} (hfuel : s.length - i < fuel) :
    Post (GarnOS.checkPath fuel b i dirindex)
      (fun b' => b'.Holds (scanPath fuel s i dirindex)) (fun _ => False) := by
  induction fuel generalizing b s i dirindex with
  | zero => omega
  | succ fuel ih =>
    rw [GarnOS.checkPath, h.strlen (by decide) (Nat.zero_le _), ok_bind, Nat.sub_zero, scanPath]
    by_cases hi : i < s.length
    · rw [if_pos hi, if_pos hi, h.read hi.le, ok_bind]
      apply (h.checkChar hi.le).bind
      intro b' hb'
      apply ih hb'
      have hle := editPath_length_le s i (if s.getD i NUL = '/' then dirindex + 1 else dirindex)
      omega
    · rw [if_neg hi, if_neg hi]
      exact post_pure.mpr h

end Refinement

end GarnOS
