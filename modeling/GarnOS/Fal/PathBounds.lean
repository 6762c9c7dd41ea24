import GarnOS.Fal.PathBuffer

/-! The bounds of `vnode_get_absolute_path`: which paths keep it inside its buffer and inside the
two strings. -/
namespace GarnOS
open Outcome Terminated List Nat CharBuf

section Append
variable {b b' : PathBuf} {p : List Char} {rel : CString} {r : Option PathBuf × ℤ}

theorem appendRelative_post (rel : CString) (hb : b.Begins p) (hp : NUL ∉ p)
    (hfit : p.length + rel.chars.length < PATH_MAX) :
    Post (appendRelative b p.length rel)
      (fun r => ∃ b', r = (some b', 0) ∧
        b'.Holds (scanPath (PATH_MAX + 2) (p ++ rel.chars ++ ['/']) 0 0))
      (fun _ => False) := by
  unfold PATH_MAX at hfit
  have hcount : (rel.strlen + 1) % 2 ^ 32 = rel.chars.length + 1 := by
    unfold CString.strlen
    omega
  unfold appendRelative
  rw [hcount]
  apply (memcpyFrom_post le_rfl (by unfold PATH_MAX; omega)).bind
  intro b₁ hb₁
  have hholds : b₁.Holds (p ++ rel.chars) := hb.append hp (by unfold PATH_MAX; omega) hb₁
  apply (hholds.strncat (by decide) (by rw [length_append]; unfold PATH_MAX; omega)).bind
  intro b₂ hb₂
  have hlen := Terminated.Holds.fits hb₂
  apply (hb₂.checkPath (i := 0) (by omega)).bind
  intro b₃ hb₃
  exact post_pure.mpr ⟨b₃, rfl, hb₃⟩

theorem appendRelative_fits (hb : b.Begins p) (hp : NUL ∉ p)
    (hclean : ∀ x < PATH_MAX + 1, b.data x ≠ NUL) (h : appendRelative b p.length rel = .ok r) :
    p.length + rel.chars.length < PATH_MAX := by
  obtain ⟨b₁, hcopy, h⟩ := bind_eq_ok.mp h
  obtain ⟨b₂, hcat, -⟩ := bind_eq_ok.mp h
  obtain ⟨l, hlen, hcat⟩ := bind_eq_ok.mp hcat
  by_cases hcount : (rel.strlen + 1) % 2 ^ 32 ≤ rel.chars.length
  · have hbad := memcpyFrom_unterminated hclean hcount hcopy
    exact absurd hlen (strlenFrom_ne_ok hbad _ _ _)
  · -- the terminator was copied, and `strncat` moves it by one
    have hall : (rel.strlen + 1) % 2 ^ 32 = rel.chars.length + 1 := by
      unfold CString.strlen at *
      omega
    rw [hall] at hcopy
    rcases memcpyFrom_fits hcopy with hzero | hfit
    · omega
    · have hholds : b₁.Holds (p ++ rel.chars) := by
        apply hb.append hp (by omega)
        exact (memcpyFrom_post le_rfl hfit).of_ok hcopy
      have hlength := Terminated.Holds.fits hholds
      rw [hholds.strlenFrom (zero_le _) (by omega)] at hlen
      cases hlen
      obtain ⟨b₃, -, hend⟩ := bind_eq_ok.mp hcat
      have hlt := (write_eq_ok hend).1
      rw [length_append] at hlt
      omega

end Append

def NeedsSlash (root : CString) : Prop := root.chars.getD (root.strlen - 1) NUL ≠ '/'

instance (root : CString) : Decidable (NeedsSlash root) := inferInstanceAs (Decidable (¬_ = _))

/-- When `vnode_get_absolute_path` stays in bounds: it returns `NULL` for the size, or an absolute
path fits in the buffer, or the paths and both slashes do and the first path is not empty. -/
def PathFits (root relative : CString) : Prop :=
  PATH_MAX < (root.strlen + relative.strlen) % 2 ^ 32 ∨
    if relative.chars.getD 0 NUL = '/' then relative.chars.length ≤ PATH_MAX
    else 0 < root.strlen ∧
      if NeedsSlash root then
        (root.strlen ≤ PATH_MAX + 1 ∧ (root.strlen + relative.strlen) % 2 ^ 32 = PATH_MAX) ∨
          root.strlen + 1 + relative.chars.length < PATH_MAX
      else root.strlen + relative.chars.length < PATH_MAX

section Cases
variable {buf : PathBuf} {root rel : CString} {r : Option PathBuf × ℤ}

theorem absolutePath_tooLong (h : PATH_MAX < (root.strlen + rel.strlen) % 2 ^ 32) :
    vnodeGetAbsolutePath buf root rel = .ok (none, ENAMETOOLONG) := if_pos h

section
variable (h : (root.strlen + rel.strlen) % 2 ^ 32 ≤ PATH_MAX)
include h

theorem absolutePath_absolute (habs : rel.chars.getD 0 NUL = '/') :
    vnodeGetAbsolutePath buf root rel = do
      let buf ← buf.memcpyFrom 0 rel ((rel.strlen + 1) % 2 ^ 32)
      return (some (← checkPath (PATH_MAX + 2) buf 0 0), 0) := by
  unfold vnodeGetAbsolutePath
  rw [if_neg (by omega), CString.read_eq (zero_le _), ok_bind, if_pos habs]

theorem absolutePath_relative (hrel : rel.chars.getD 0 NUL ≠ '/') :
    vnodeGetAbsolutePath buf root rel = (do
      let buf ← buf.memcpyFrom 0 root root.strlen
      if (← root.read (u64 (root.strlen - 1))) ≠ '/' then
        if (root.strlen + rel.strlen) % 2 ^ 32 + 1 > PATH_MAX then return (none, ENAMETOOLONG)
        else appendRelative (← buf.write root.strlen '/') (root.strlen + 1) rel
      else appendRelative buf root.strlen rel) := by
  unfold vnodeGetAbsolutePath
  rw [if_neg (by omega), CString.read_eq (zero_le _), ok_bind, if_neg hrel]

end

theorem CString.strlen_le (s : CString) : s.strlen ≤ s.chars.length := Nat.mod_le _ _

theorem read_before_zero (h : root.strlen = 0) :
    root.read (u64 (root.strlen - 1)) = .error (.overrun (2 ^ 64 - 1)) := by
  have hshort := root.short
  rw [h]
  apply if_neg
  unfold CString.strlen at h
  have hminus : u64 ((0 : ℕ) - 1) = 2 ^ 64 - 1 := by decide
  rw [hminus]
  omega

theorem read_before_pos (h : 0 < root.strlen) :
    root.read (u64 (root.strlen - 1)) = .ok (root.chars.getD (root.strlen - 1) NUL) := by
  have hle := root.strlen_le
  have hlt : root.strlen < 2 ^ 32 := mod_lt _ (by decide)
  have hindex : u64 (root.strlen - 1) = root.strlen - 1 := by
    unfold u64
    omega
  rw [hindex]
  exact CString.read_eq (by omega)

theorem begins_take {b : PathBuf} (hb : ∀ x, b.data x =
      if 0 ≤ x ∧ x < 0 + root.strlen then root.chars.getD (x - 0) NUL else buf.data x) :
    b.Begins (root.chars.take root.strlen) := by
  intro x hx
  rw [length_take] at hx
  rw [hb, if_pos (by omega), Nat.sub_zero, getD_eq_getElem?_getD, getD_eq_getElem?_getD,
    getElem?_take, if_pos (by omega)]

theorem length_take_strlen (root : CString) :
    (root.chars.take root.strlen).length = root.strlen := by
  rw [length_take]
  exact min_eq_left root.strlen_le

theorem clean_take (root : CString) : NUL ∉ root.chars.take root.strlen := fun h =>
  root.clean (List.mem_of_mem_take h)

section
variable (buf : PathBuf) (h : (root.strlen + rel.strlen) % 2 ^ 32 ≤ PATH_MAX)
include h

theorem absolutePath_absolute_post (habs : rel.chars.getD 0 NUL = '/') (hfit : rel.chars.length ≤ PATH_MAX) :
    Post (vnodeGetAbsolutePath buf root rel)
      (fun r => ∃ b, r = (some b, 0) ∧ b.Holds (scanPath (PATH_MAX + 2) rel.chars 0 0))
      (fun _ => False) := by
  have hcount : (rel.strlen + 1) % 2 ^ 32 = rel.chars.length + 1 := by
    unfold PATH_MAX at hfit
    unfold CString.strlen
    omega
  rw [absolutePath_absolute h habs, hcount]
  apply (memcpyFrom_post le_rfl (by omega)).bind
  intro b₁ hb₁
  have hholds : b₁.Holds ([] ++ rel.chars) := by
    have hnone : buf.Begins [] := fun x hx => absurd hx (not_lt_zero x)
    exact hnone.append (by simp) (by simpa using lt_succ_of_le hfit) (by simpa using hb₁)
  apply (hholds.checkPath (i := 0) (by rw [nil_append]; omega)).bind
  intro b₂ hb₂
  exact post_pure.mpr ⟨b₂, rfl, hb₂⟩

theorem absolutePath_relative_post (hrel : rel.chars.getD 0 NUL ≠ '/') (hroot : 0 < root.strlen)
    (hslash : ¬NeedsSlash root) (hfit : root.strlen + rel.chars.length < PATH_MAX) :
    Post (vnodeGetAbsolutePath buf root rel)
      (fun r => ∃ b, r = (some b, 0) ∧ b.Holds (scanPath (PATH_MAX + 2)
        (root.chars.take root.strlen ++ rel.chars ++ ['/']) 0 0)) (fun _ => False) := by
  rw [absolutePath_relative h hrel]
  apply (memcpyFrom_post (le_succ_of_le root.strlen_le) (by omega)).bind
  intro b₁ hb₁
  unfold NeedsSlash at hslash
  rw [read_before_pos hroot, ok_bind, if_neg hslash]
  have hpost := appendRelative_post rel (begins_take hb₁) (clean_take root)
    (by rw [length_take_strlen]; exact hfit)
  rwa [length_take_strlen] at hpost

theorem absolutePath_slash_post (hrel : rel.chars.getD 0 NUL ≠ '/') (hroot : 0 < root.strlen)
    (hslash : NeedsSlash root)
    (hfit : (root.strlen ≤ PATH_MAX + 1 ∧ (root.strlen + rel.strlen) % 2 ^ 32 = PATH_MAX) ∨
      root.strlen + 1 + rel.chars.length < PATH_MAX) :
    Post (vnodeGetAbsolutePath buf root rel) (fun _ => True) (fun _ => False) := by
  rw [absolutePath_relative h hrel]
  apply (memcpyFrom_post (le_succ_of_le root.strlen_le) (by omega)).bind
  intro b₁ hb₁
  unfold NeedsSlash at hslash
  rw [read_before_pos hroot, ok_bind, if_pos hslash]
  split
  · exact post_pure.mpr trivial
  · have hlen : root.strlen + 1 + rel.chars.length < PATH_MAX := by omega
    have hwrite : b₁.write root.strlen '/' = .ok _ := write_eq (by omega)
    have hbegins : b₁.Begins (root.chars.take root.strlen) := begins_take hb₁
    have hlength := length_take_strlen root
    have hslashed : NUL ∉ root.chars.take root.strlen ++ ['/'] := by
      rw [mem_append, not_or]
      exact ⟨clean_take root, by decide⟩
    rw [hwrite, ok_bind]
    have hpost := appendRelative_post rel
      (hbegins.write (by rw [hlength]; exact hwrite)) hslashed
      (by rw [length_append, hlength]; exact hlen)
    rw [length_append, hlength] at hpost
    exact hpost.mono_ok fun _ _ => trivial

end

theorem PathFits.returns (h : PathFits root rel) (buf : PathBuf) :
    ∃ r, vnodeGetAbsolutePath buf root rel = .ok r := by
  rcases lt_or_ge PATH_MAX ((root.strlen + rel.strlen) % 2 ^ 32) with hlong | hsize
  · exact ⟨_, absolutePath_tooLong hlong⟩
  · rcases h with hlong | h
    · omega
    · split at h
      · rename_i habs
        obtain ⟨r, hr, -⟩ := (absolutePath_absolute_post buf hsize habs h).returns
        exact ⟨r, hr⟩
      · rename_i hrel
        obtain ⟨hroot, h⟩ := h
        split at h
        · rename_i hslash
          obtain ⟨r, hr, -⟩ := (absolutePath_slash_post buf hsize hrel hroot hslash h).returns
          exact ⟨r, hr⟩
        · rename_i hslash
          obtain ⟨r, hr, -⟩ :=
            (absolutePath_relative_post buf hsize hrel hroot hslash h).returns
          exact ⟨r, hr⟩

variable (h : (root.strlen + rel.strlen) % 2 ^ 32 ≤ PATH_MAX)
include h

/-- An absolute path that does not fit leaves no terminator in a buffer that had none. -/
theorem absolutePath_absolute_fits (habs : rel.chars.getD 0 NUL = '/')
    (hclean : ∀ x < PATH_MAX + 1, buf.data x ≠ NUL)
    (hr : vnodeGetAbsolutePath buf root rel = .ok r) : rel.chars.length ≤ PATH_MAX := by
  rw [absolutePath_absolute h habs] at hr
  obtain ⟨b₁, hcopy, hr⟩ := bind_eq_ok.mp hr
  obtain ⟨b₂, hcheck, -⟩ := bind_eq_ok.mp hr
  obtain ⟨l, hlen, -⟩ := bind_eq_ok.mp hcheck
  by_cases hcount : (rel.strlen + 1) % 2 ^ 32 ≤ rel.chars.length
  · have hbad := memcpyFrom_unterminated hclean hcount hcopy
    exact absurd hlen (strlen_ne_ok hbad _ _)
  · rcases memcpyFrom_fits hcopy with hzero | hfit
    · omega
    · omega

theorem absolutePath_relative_fits (hrel : rel.chars.getD 0 NUL ≠ '/')
    (hclean : ∀ x < PATH_MAX + 1, buf.data x ≠ NUL)
    (hr : vnodeGetAbsolutePath buf root rel = .ok r) :
    0 < root.strlen ∧ if NeedsSlash root then
      (root.strlen ≤ PATH_MAX + 1 ∧ (root.strlen + rel.strlen) % 2 ^ 32 = PATH_MAX) ∨
        root.strlen + 1 + rel.chars.length < PATH_MAX
    else root.strlen + rel.chars.length < PATH_MAX := by
  rw [absolutePath_relative h hrel] at hr
  obtain ⟨b₁, hcopy, hr⟩ := bind_eq_ok.mp hr
  have hclean₁ := memcpyFrom_unterminated hclean root.strlen_le hcopy
  rcases Nat.eq_zero_or_pos root.strlen with hzero | hroot
  · rw [read_before_zero hzero] at hr
    cases hr
  · have hcount : root.strlen ≤ PATH_MAX + 1 := by
      rcases memcpyFrom_fits hcopy with hzero | hfit
      all_goals omega
    have hbegins := begins_take ((memcpyFrom_post (le_succ_of_le root.strlen_le)
      (by omega)).of_ok hcopy)
    have hlength := length_take_strlen root
    rw [read_before_pos hroot, ok_bind] at hr
    refine ⟨hroot, ?_⟩
    by_cases hslash : NeedsSlash root
    · rw [if_pos hslash]
      unfold NeedsSlash at hslash
      rw [if_pos hslash] at hr
      split at hr
      · exact Or.inl ⟨hcount, by omega⟩
      · obtain ⟨b₂, hwrite, hr⟩ := bind_eq_ok.mp hr
        have hclean₂ : ∀ x < PATH_MAX + 1, b₂.data x ≠ NUL := by
          rw [(write_eq_ok hwrite).2]
          intro x hx
          dsimp only
          by_cases hxi : x = root.strlen
          · rw [hxi, Function.update_self]
            decide
          · rw [Function.update_of_ne hxi]
            exact hclean₁ x hx
        have hslashed : NUL ∉ root.chars.take root.strlen ++ ['/'] := by
          rw [mem_append, not_or]
          exact ⟨clean_take root, by decide⟩
        have hfits := appendRelative_fits (r := r)
          (hbegins.write (by rw [hlength]; exact hwrite)) hslashed hclean₂
          (by rw [length_append, hlength]; exact hr)
        rw [length_append, hlength] at hfits
        exact Or.inr hfits
    · rw [if_neg hslash]
      unfold NeedsSlash at hslash
      rw [if_neg hslash] at hr
      have hfits := appendRelative_fits (r := r) hbegins (clean_take root) hclean₁
        (by rw [hlength]; exact hr)
      rwa [hlength] at hfits

end Cases

/-- Every access of `vnode_get_absolute_path` is in bounds, whatever the new buffer contains,
exactly if the paths fit. -/
theorem absolute_path_bounds_iff (root relative : CString) :
    (∀ buf, ∃ r, vnodeGetAbsolutePath buf root relative = .ok r) ↔ PathFits root relative := by
  constructor
  · intro h
    rcases lt_or_ge PATH_MAX ((root.strlen + relative.strlen) % 2 ^ 32) with hlong | hsize
    · exact Or.inl hlong
    · right
      have hclean : ∀ x < PATH_MAX + 1, (⟨fun _ => '/'⟩ : PathBuf).data x ≠ NUL := by
        intro x _
        exact (by decide : '/' ≠ NUL)
      obtain ⟨r, hr⟩ := h ⟨fun _ => '/'⟩
      split
      · rename_i habs
        exact absolutePath_absolute_fits hsize habs hclean hr
      · rename_i hrel
        exact absolutePath_relative_fits hsize hrel hclean hr
  · intro h buf
    exact h.returns buf

def slashPath : CString := ⟨['/'], by decide, by decide⟩

def longName : CString where
  chars := List.replicate 4095 'a'
  clean := by
    rw [List.mem_replicate]
    decide
  short := by
    rw [List.length_replicate]
    decide

def staleBuf : PathBuf := ⟨fun _ => 'x'⟩

/-- The two together have the size that is allowed, and `strncat` writes behind the buffer. -/
theorem absolute_path_bounds_limit :
    vnodeGetAbsolutePath staleBuf slashPath longName = .error (.overrun (PATH_MAX + 1)) := by
  have hname : longName.chars.length = 4095 := length_replicate
  have hstrlen : longName.strlen = 4095 := by
    rw [CString.strlen, hname]
    exact mod_eq_of_lt (by decide)
  have hrel : longName.chars.getD 0 NUL ≠ '/' := by
    decide
  have hroot : slashPath.strlen = 1 := rfl
  rw [absolutePath_relative (by rw [hstrlen, hroot]; decide) hrel]
  have hfirst : Post (staleBuf.memcpyFrom 0 slashPath slashPath.strlen) _ _ :=
    memcpyFrom_post (by decide) (by decide)
  obtain ⟨b₁, hcopy, hb₁⟩ := hfirst.returns
  rw [hcopy, ok_bind, read_before_pos (by decide), ok_bind, if_neg (by decide)]
  have hbegins := begins_take hb₁
  unfold appendRelative
  rw [hstrlen]
  have hcount : (4095 + 1) % 2 ^ 32 = 4096 := by decide
  have hsecond : Post (b₁.memcpyFrom 1 longName 4096) _ _ :=
    memcpyFrom_post (by rw [hname]) (by decide)
  obtain ⟨b₂, hcopy₂, hb₂⟩ := hsecond.returns
  have hholds : b₂.Holds (['/'] ++ longName.chars) :=
    hbegins.append (by decide) (by rw [hname]; decide) (by rw [hname]; exact hb₂)
  have hfull : (['/'] ++ longName.chars).length = 4096 := by
    rw [length_append, hname]
    rfl
  have hlen : b₂.strlenFrom (PATH_MAX + 1 + 1) 0 = _ :=
    hholds.strlenFrom (zero_le _) (by rw [hfull]; decide)
  rw [hroot, hcount, hcopy₂, ok_bind, strncat, hlen, hfull, ok_bind,
    write_eq (by decide), ok_bind]
  rfl

end GarnOS
