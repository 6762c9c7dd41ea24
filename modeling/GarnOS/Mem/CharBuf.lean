import GarnOS.Mem.Memutil
import GarnOS.Library.Terminated

/-! Strings, and the string functions of `memutil.c` on arrays of a fixed size. An access outside
the string or the array is a fault. -/
namespace GarnOS
open Function Outcome Terminated List Nat

def NUL : Char := '\x00'

/-- A string as C passes it. The terminator stands right after the characters, and all of it in
the address space. -/
structure CString where
  chars : List Char
  clean : NUL ∉ chars
  short : chars.length < 2 ^ 64

def CString.read (s : CString) (i : ℕ) : Except Fault Char :=
  if i ≤ s.chars.length then .ok (s.chars.getD i NUL) else .error (.overrun i)

def CString.strlen (s : CString) : ℕ := s.chars.length % 2 ^ 32

structure CharBuf (n : ℕ) where
  data : ℕ → Char

namespace CharBuf
variable {n : ℕ}

def read (b : CharBuf n) (i : ℕ) : Except Fault Char :=
  if i < n then .ok (b.data i) else .error (.overrun i)

def write (b : CharBuf n) (i : ℕ) (c : Char) : Except Fault (CharBuf n) :=
  if i < n then .ok ⟨update b.data i c⟩ else .error (.overrun i)

def memcpyFrom (b : CharBuf n) (dest : ℕ) (s : CString) (count : ℕ) : Except Fault (CharBuf n) :=
  forRange (fun i b => do b.write (dest + i) (← s.read i)) 0 count b

/-- `memcpy` inside one array, from the first character on. -/
def memcpy (b : CharBuf n) (dest src count : ℕ) : Except Fault (CharBuf n) :=
  forRange (fun i b => do b.write (dest + i) (← b.read (src + i))) 0 count b

def strlenFrom (b : CharBuf n) : ℕ → ℕ → Except Fault ℕ
  | 0, _ => .error .diverges
  | fuel + 1, i => do
    if (← b.read i) = NUL then return 0 else return (← strlenFrom b fuel (i + 1)) + 1

/-- Without a terminator the loop leaves the array after at most `n` characters. -/
def strlen (b : CharBuf n) (i : ℕ) : Except Fault ℕ := do
  return (← strlenFrom b (n + 1) i) % 2 ^ 32

/-- Whether `strncmp` with a literal and its length is zero. -/
def startsWith (b : CharBuf n) : List Char → ℕ → Except Fault Bool
  | [], _ => .ok true
  | c :: cs, i => do if (← b.read i) = c then startsWith b cs (i + 1) else return false

def strncat (b : CharBuf n) (c : Char) : Except Fault (CharBuf n) := do
  let l ← strlenFrom b (n + 1) 0
  let b ← b.write l c
  b.write (l + 1) NUL

def Holds (b : CharBuf n) (s : List Char) : Prop := Terminated.Holds NUL n b.data s

end CharBuf

section Loops
variable {n count dest src i : ℕ} {b b' : CharBuf n} {s : CString} {t : List Char} {c : Char}

theorem CString.read_eq (h : i ≤ s.chars.length) : s.read i = .ok (s.chars.getD i NUL) := if_pos h

theorem CharBuf.read_eq (h : i < n) : b.read i = .ok (b.data i) := if_pos h

theorem CharBuf.write_eq (h : i < n) : b.write i c = .ok ⟨update b.data i c⟩ := if_pos h

theorem copy_loop {body : ℕ → CharBuf n → Except Fault (CharBuf n)} (f : ℕ → Char) {k : ℕ}
    (hbody : ∀ i b', i < k →
      (∀ x, b'.data x = if dest ≤ x ∧ x < dest + i then f (x - dest) else b.data x) →
      body i b' = .ok ⟨update b'.data (dest + i) (f i)⟩) :
    Post (forRange body 0 k b)
      (fun b' => ∀ x, b'.data x = if dest ≤ x ∧ x < dest + k then f (x - dest) else b.data x)
      (fun _ => False) := by
  have hstep : ∀ i b', 0 ≤ i → i < 0 + k →
      (∀ x, b'.data x = if dest ≤ x ∧ x < dest + i then f (x - dest) else b.data x) →
      Post (body i b') (fun b' => ∀ x, b'.data x =
        if dest ≤ x ∧ x < dest + (i + 1) then f (x - dest) else b.data x) (fun _ => False) := by
    intro i b' _ hi hb'
    rw [hbody i b' (by omega) hb', post_ok]
    intro x
    dsimp only
    by_cases hx : x = dest + i
    · rw [hx, update_self, if_pos (by omega), Nat.add_sub_cancel_left]
    · rw [update_of_ne hx, hb' x]
      by_cases hin : dest ≤ x ∧ x < dest + i
      · rw [if_pos hin, if_pos (by omega)]
      · rw [if_neg hin, if_neg (by omega)]
  have hloop := forRange_post (fun i (b' : CharBuf n) => ∀ x, b'.data x =
    if dest ≤ x ∧ x < dest + i then f (x - dest) else b.data x) (s := b)
    (fun x => by rw [if_neg (by omega)]) hstep
  rwa [zero_add] at hloop

theorem CharBuf.memcpyFrom_post (hcount : count ≤ s.chars.length + 1) (hfit : dest + count ≤ n) :
    Post (b.memcpyFrom dest s count)
      (fun b' => ∀ x, b'.data x =
        if dest ≤ x ∧ x < dest + count then s.chars.getD (x - dest) NUL else b.data x)
      (fun _ => False) := by
  apply copy_loop (fun i => s.chars.getD i NUL)
  intro i b' hi _
  rw [CString.read_eq (by omega)]
  exact CharBuf.write_eq (by omega)

theorem CharBuf.memcpy_post (hle : dest ≤ src) (hfit : src + count ≤ n) :
    Post (b.memcpy dest src count)
      (fun b' => ∀ x, b'.data x =
        if dest ≤ x ∧ x < dest + count then b.data (x - dest + src) else b.data x)
      (fun _ => False) := by
  apply copy_loop (fun i => b.data (i + src))
  intro i b' hi hb'
  have hread : b'.data (src + i) = b.data (i + src) := by
    rw [hb', if_neg (by omega), add_comm]
  rw [CharBuf.read_eq (by omega), hread]
  exact CharBuf.write_eq (by omega)

end Loops

section Strings
variable {n i j : ℕ} {b : CharBuf n} {s t cs : List Char} {c : Char}

variable (h : b.Holds s)
include h

theorem CharBuf.Holds.read (hi : i ≤ s.length) : b.read i = .ok (s.getD i NUL) := by
  have hfits := Terminated.Holds.fits h
  rw [CharBuf.read_eq (by omega), Terminated.Holds.value h i hi]

theorem CharBuf.Holds.strlenFrom {fuel : ℕ} (hi : i ≤ s.length) (hfuel : s.length - i < fuel) :
    b.strlenFrom fuel i = .ok (s.length - i) := by
  induction fuel generalizing i with
  | zero => omega
  | succ fuel ih =>
    have hnul := Terminated.Holds.eq_nul_iff h hi
    rw [Terminated.Holds.value h i hi] at hnul
    rw [CharBuf.strlenFrom, h.read hi, ok_bind]
    by_cases hend : i = s.length
    · rw [if_pos (hnul.mpr hend), hend, Nat.sub_self]
      rfl
    · rw [if_neg fun heq => hend (hnul.mp heq), ih (by omega) (by omega)]
      exact congrArg Except.ok (by omega)

theorem CharBuf.Holds.strlen (hn : n ≤ 2 ^ 32) (hi : i ≤ s.length) :
    b.strlen i = .ok (s.length - i) := by
  have hfits := Terminated.Holds.fits h
  rw [CharBuf.strlen, h.strlenFrom hi (by omega)]
  exact congrArg Except.ok (mod_eq_of_lt (by omega))

theorem CharBuf.Holds.startsWith (hcs : NUL ∉ cs) (hi : i ≤ s.length) :
    b.startsWith cs i = .ok (decide (cs <+: s.drop i)) := by
  induction cs generalizing i with
  | nil => simp [CharBuf.startsWith]
  | cons c cs ih =>
    rw [mem_cons, not_or] at hcs
    rw [CharBuf.startsWith, h.read hi, ok_bind]
    rcases lt_or_eq_of_le hi with hlt | rfl
    · have hiff : c :: cs <+: s.drop i ↔ c = s[i] ∧ cs <+: s.drop (i + 1) := by
        rw [drop_eq_getElem_cons hlt, cons_prefix_cons]
      rw [getD_eq_getElem _ _ hlt]
      by_cases hc : s[i] = c
      · rw [if_pos hc, ih hcs.2 hlt]
        apply congrArg Except.ok
        rw [decide_eq_decide, hiff]
        exact ⟨fun h => ⟨hc.symm, h⟩, And.right⟩
      · rw [if_neg hc, decide_eq_false fun hpre => hc (hiff.mp hpre).1.symm]
        rfl
    · have hnot : ¬c :: cs <+: s.drop s.length := by simp
      rw [getD_eq_default _ _ le_rfl, if_neg hcs.1, decide_eq_false hnot]
      rfl

theorem CharBuf.Holds.cut (hij : i ≤ j) (hj : j ≤ s.length) :
    Post (b.memcpy i j (s.length - j + 1)) (fun b' => b'.Holds (s.take i ++ s.drop j))
      (fun _ => False) := by
  have hfits := Terminated.Holds.fits h
  apply (CharBuf.memcpy_post hij (by omega)).mono
  · intro b' hb'
    apply Terminated.Holds.cut h hij hj
    · intro x hx
      rw [hb', if_neg (by omega)]
    · intro x hlo hhi
      rw [hb', if_pos ⟨hlo, hhi⟩]
  · intro e he
    exact he

theorem CharBuf.Holds.strncat (hc : c ≠ NUL) (hfit : s.length + 1 < n) :
    Post (b.strncat c) (fun b' => b'.Holds (s ++ [c])) (fun _ => False) := by
  rw [CharBuf.strncat, h.strlenFrom (Nat.zero_le _) (by omega), ok_bind, Nat.sub_zero,
    CharBuf.write_eq (by omega), ok_bind, CharBuf.write_eq hfit, post_ok]
  apply holds_append (by simpa using hfit) (Terminated.Holds.clean h) (by simpa using hc.symm)
  · intro x hx
    dsimp only
    rw [update_of_ne (by omega), update_of_ne (by omega),
      Terminated.Holds.value h x hx.le]
  · intro x hx
    rw [length_singleton] at hx
    dsimp only
    rcases Nat.eq_zero_or_pos x with rfl | hpos
    · rw [update_of_ne (by omega)]
      exact update_self ..
    · obtain rfl : x = 1 := by omega
      rw [update_self]
      rfl

end Strings

section Unterminated
variable {n count dest i : ℕ} {b b' : CharBuf n} {s : CString} {c : Char}

theorem CharBuf.strlenFrom_ne_ok (h : ∀ x < n, b.data x ≠ NUL) (fuel i l : ℕ) :
    b.strlenFrom fuel i ≠ .ok l := by
  induction fuel generalizing i l with
  | zero =>
    intro hcall
    cases hcall
  | succ fuel ih =>
    intro hcall
    obtain ⟨c, hread, hcall⟩ := bind_eq_ok.mp hcall
    unfold CharBuf.read at hread
    split at hread
    · rename_i hi
      cases hread
      rw [if_neg (h i hi)] at hcall
      obtain ⟨l', hrest, -⟩ := bind_eq_ok.mp hcall
      exact ih _ _ hrest
    · cases hread

theorem CharBuf.strlen_ne_ok (h : ∀ x < n, b.data x ≠ NUL) (i l : ℕ) : b.strlen i ≠ .ok l := by
  intro hcall
  obtain ⟨l', hcall, -⟩ := bind_eq_ok.mp hcall
  exact CharBuf.strlenFrom_ne_ok h _ _ _ hcall

theorem CharBuf.write_eq_ok (h : b.write i c = .ok b') :
    i < n ∧ b' = ⟨update b.data i c⟩ := by
  unfold CharBuf.write at h
  split at h
  · rename_i hi
    exact ⟨hi, (Except.ok.inj h).symm⟩
  · cases h

theorem CharBuf.memcpyFrom_fits (h : b.memcpyFrom dest s count = .ok b') :
    count = 0 ∨ dest + count ≤ n := by
  rw [← zero_add count]
  apply forRange_ok (fun i _ => i = 0 ∨ dest + i ≤ n) h (Or.inl rfl)
  intro i u u' _ _ _ hbody
  obtain ⟨c, -, hwrite⟩ := bind_eq_ok.mp hbody
  exact Or.inr (CharBuf.write_eq_ok hwrite).1

theorem CharBuf.memcpyFrom_unterminated (hb : ∀ x < n, b.data x ≠ NUL)
    (hcount : count ≤ s.chars.length) (h : b.memcpyFrom dest s count = .ok b') :
    ∀ x < n, b'.data x ≠ NUL := by
  apply forRange_ok (fun _ (u : CharBuf n) => ∀ x < n, u.data x ≠ NUL) h hb
  intro i u u' _ hi hu hbody
  obtain ⟨c, hread, hwrite⟩ := bind_eq_ok.mp hbody
  rw [CString.read_eq (by omega)] at hread
  cases hread
  rw [(CharBuf.write_eq_ok hwrite).2]
  intro x hx
  dsimp only
  by_cases hxi : x = dest + i
  · rw [hxi, update_self]
    exact getD_ne_of_clean s.clean (by omega)
  · rw [update_of_ne hxi]
    exact hu x hx

end Unterminated

def CharBuf.Begins {n : ℕ} (b : CharBuf n) (p : List Char) : Prop :=
  ∀ x < p.length, b.data x = p.getD x NUL

section Begins
variable {n : ℕ} {b b' : CharBuf n} {s : CString} {p : List Char} {c : Char}

theorem CharBuf.Begins.append (hb : b.Begins p) (hp : NUL ∉ p)
    (hfit : p.length + s.chars.length < n)
    (hb' : ∀ x, b'.data x = if p.length ≤ x ∧ x < p.length + (s.chars.length + 1) then
      s.chars.getD (x - p.length) NUL else b.data x) : b'.Holds (p ++ s.chars) := by
  apply holds_append hfit hp s.clean
  · intro x hx
    rw [hb', if_neg (by omega)]
    exact hb x hx
  · intro x hx
    rw [hb', if_pos (by omega), Nat.add_sub_cancel_left]

theorem CharBuf.Begins.write (hb : b.Begins p)
    (h : b.write p.length c = .ok b') : b'.Begins (p ++ [c]) := by
  rw [(CharBuf.write_eq_ok h).2]
  intro x hx
  rw [length_append, length_singleton] at hx
  dsimp only
  rcases lt_or_ge x p.length with hlt | hge
  · rw [update_of_ne (by omega), hb x hlt, getD_append _ _ _ _ hlt]
  · obtain rfl : x = p.length := by omega
    rw [update_self, getD_append_right _ _ _ _ le_rfl, Nat.sub_self]
    rfl

theorem CharBuf.Begins.terminate (hb : b.Begins p) (hp : NUL ∉ p)
    (h : b.write p.length NUL = .ok b') : b'.Holds p := by
  obtain ⟨hfit, rfl⟩ := CharBuf.write_eq_ok h
  refine ⟨hfit, hp, ?_⟩
  intro x hx
  dsimp only
  rcases lt_or_eq_of_le hx with hlt | rfl
  · rw [update_of_ne (by omega), hb x hlt]
  · rw [update_self, getD_eq_default _ _ le_rfl]

end Begins

section Rest
variable {s : CString} {i : ℕ} {c : Char} {cs : List Char}

theorem CString.read_of_drop (h : s.chars.drop i = c :: cs) : s.read i = .ok c := by
  have hc : s.chars[i]? = some c := by
    rw [← add_zero i, ← getElem?_drop, h]
    rfl
  have hi : i < s.chars.length := (List.getElem?_eq_some_iff.mp hc).1
  rw [CString.read_eq hi.le, getD_eq_getElem?_getD, hc]
  rfl

theorem CString.read_of_drop_nil (hi : i ≤ s.chars.length) (h : s.chars.drop i = []) :
    s.read i = .ok NUL := by
  have hlen := drop_eq_nil_iff.mp h
  rw [CString.read_eq hi, getD_eq_default _ _ hlen]

variable (h : s.chars.drop i = c :: cs)
include h

theorem CString.ne_nul_of_drop : c ≠ NUL := by
  rintro rfl
  exact s.clean (mem_of_mem_drop (h ▸ mem_cons_self))

theorem CString.drop_succ : s.chars.drop (i + 1) = cs := by
  rw [← drop_drop, h]
  rfl

theorem CString.lt_of_drop : i < s.chars.length := by
  by_contra hge
  rw [drop_eq_nil_of_le (by omega)] at h
  cases h

end Rest

end GarnOS
