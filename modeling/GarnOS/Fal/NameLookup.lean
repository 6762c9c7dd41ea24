import GarnOS.Fal.VnodeSpec
import GarnOS.Mem.CharBuf
import Mathlib.Data.List.TakeWhile

/-! `vnode_lookup` character by character, over any tree of vnodes: the names that it hands to
`vn_lookup`, and the vnode that it ends at. -/
namespace GarnOS
open Outcome Separated List CString

abbrev NameBuf := CharBuf 256

/-- The characters of the array up to the terminator. -/
def NameBuf.chars (b : NameBuf) : List Char := ((List.range 256).map b.data).takeWhile (· ≠ NUL)

theorem NameBuf.chars_clean (b : NameBuf) : NUL ∉ b.chars := by
  intro h
  simpa using mem_takeWhile_imp h

theorem NameBuf.chars_short (b : NameBuf) : b.chars.length < 2 ^ 64 := by
  have hle := (takeWhile_sublist (· ≠ NUL) (l := (range 256).map b.data)).length_le
  rw [length_map, length_range] at hle
  exact hle.trans_lt (by decide)

/-- The array as a string, for a function that gets a pointer to it. -/
def NameBuf.string (b : NameBuf) : Except Fault CString :=
  if b.chars.length < 256 then .ok ⟨b.chars, b.chars_clean, b.chars_short⟩
  else .error (.overrun 256)

/-- What `vn_lookup` returns. With `NULL` it may have set `kerrno`. -/
inductive Answer (V : Type) where
  | vnode (v : V)
  | missing (kerrno : Option ℤ)

def Answer.vnode? {V : Type} : Answer V → Option V
  | .vnode v => some v
  | .missing _ => none

/-- The vnodes `V` and file systems `F` as `vnode_lookup` sees them. A vnode without `vnodeops` has
no `vn_lookup` either. -/
structure VfsTree (V F : Type) where
  rootVFS : F
  rootVnode : F → V
  vfsMountedHere : V → Option F
  vnLookup : V → Option (CString → Except Fault (Answer V))
  vnInactive : V → Bool

/-- What `vnode_lookup` returns and leaves in `kerrno`, with the calls of `vn_lookup` and
`vn_inactive` that it has made. -/
structure LookupResult (V : Type) where
  vnode : Option V
  kerrno : ℤ
  calls : List (V × CString)
  recycled : List V

structure NameCursor (V F : Type) where
  vfs : F
  currentVnode : V
  stridx : ℕ
  dirname : NameBuf
  calls : List (V × CString)
  recycled : List V

/-- `stridx++` of an `int`. Behind the largest one it is undefined. -/
def intSucc (i : ℕ) : Except Fault ℕ :=
  if i + 1 < 2 ^ 31 then .ok (i + 1) else .error (.overrun (i + 1))

/-- The inner loop: the characters up to a slash or the end of the path. -/
def copyName (path : CString) : ℕ → ℕ → ℕ → NameBuf → Except Fault (ℕ × ℕ × NameBuf)
  | 0, _, _, _ => .error .diverges
  | fuel + 1, stridx, dirnameidx, dirname => do
    let c ← path.read stridx
    if c = '/' then return (stridx, dirnameidx, dirname)
    else
      let dirname ← dirname.write dirnameidx c
      let stridx ← intSucc stridx
      if (← path.read stridx) = NUL then return (stridx, dirnameidx + 1, dirname)
      else copyName path fuel stridx (dirnameidx + 1) dirname

/-- The slash, if there is one, and the terminator. -/
def endName (path : CString) (x : ℕ × ℕ × NameBuf) : Except Fault (ℕ × NameBuf) := do
  let (stridx, dirnameidx, dirname) := x
  if (← path.read stridx) = '/' then
    let dirname ← dirname.write dirnameidx '/'
    let stridx ← intSucc stridx
    return (stridx, ← dirname.write (dirnameidx + 1) NUL)
  else return (stridx, ← dirname.write dirnameidx NUL)

def readName (path : CString) (stridx : ℕ) (dirname : NameBuf) : Except Fault (ℕ × NameBuf) :=
  copyName path (path.chars.length + 1) stridx 0 dirname >>= endName path

namespace VfsTree
variable {V F : Type}

/-- Go on at the vnode found, or at the root of what is mounted there. -/
def enterVnode (T : VfsTree V F) (w : NameCursor V F) (v : V) : NameCursor V F :=
  match T.vfsMountedHere v with
  | none => { w with currentVnode := v }
  | some vfs => { w with vfs := vfs, currentVnode := T.rootVnode vfs }

section Loop
variable [DecidableEq V]

/-- One round of the loop: the cursor for the next one, or the result. -/
def lookupRound (T : VfsTree V F) (path : CString) (w : NameCursor V F) :
    Except Fault (NameCursor V F ⊕ LookupResult V) := do
  let (stridx, dirname) ← readName path w.stridx w.dirname
  match T.vnLookup w.currentVnode with
  | none => return .inr ⟨none, EINVAL, w.calls, w.recycled⟩
  | some vnLookup =>
    let name ← dirname.string
    let found ← vnLookup name
    let calls := w.calls ++ [(w.currentVnode, name)]
    let recycled :=
      if w.currentVnode ≠ T.rootVnode w.vfs ∧ T.vnInactive w.currentVnode then
        w.recycled ++ [w.currentVnode]
      else w.recycled
    match found with
    | .missing kerrno => return .inr ⟨none, kerrno.getD 0, calls, recycled⟩
    | .vnode v => return .inl (T.enterVnode { w with stridx, dirname, calls, recycled } v)

/-- The loop of `vnode_lookup`. Each round takes a character at least. -/
def lookupLoop (T : VfsTree V F) (path : CString) :
    ℕ → NameCursor V F → Except Fault (LookupResult V)
  | 0, _ => .error .diverges
  | fuel + 1, w => do
    if (← path.read w.stridx) = NUL then return ⟨some w.currentVnode, 0, w.calls, w.recycled⟩
    else
      match ← T.lookupRound path w with
      | .inl w => lookupLoop T path fuel w
      | .inr r => return r

/-- `vnode_lookup`; the path may be `NULL`, and `dirname` is not initialised. -/
def vnodeLookup (T : VfsTree V F) (dirname : NameBuf) :
    Option CString → Except Fault (LookupResult V)
  | none => .ok ⟨none, EINVAL, [], []⟩
  | some path => do
    if (← path.read 0) ≠ '/' then return ⟨none, EINVAL, [], []⟩
    else
      T.lookupLoop path (path.chars.length + 1)
        ⟨T.rootVFS, T.rootVnode T.rootVFS, 1, dirname, [], []⟩

end Loop

def enter (T : VfsTree V F) (v : V) : V :=
  match T.vfsMountedHere v with
  | none => v
  | some vfs => T.rootVnode vfs

/-- One component: the vnode found in the directory `d`, or what is mounted there. -/
def step (T : VfsTree V F) (answer : V → CString → Answer V) (d : V) (name : CString) : Option V :=
  match T.vnLookup d with
  | none => none
  | some _ => (answer d name).vnode?.map T.enter

/-- The components that are looked at, each with the directory it is looked for in. -/
def reached (T : VfsTree V F) (answer : V → CString → Answer V) :
    V → List CString → List (V × CString)
  | _, [] => []
  | d, name :: names => (d, name) ::
    match T.step answer d name with
    | none => []
    | some v => reached T answer v names

/-- The calls among them: a directory without `vn_lookup` is not asked. -/
def asked (T : VfsTree V F) (l : List (V × CString)) : List (V × CString) :=
  l.filter fun c => (T.vnLookup c.1).isSome

end VfsTree

section Names
variable {path : CString} {stridx fuel : ℕ} {dirname : NameBuf} {p cs : List Char} {c : Char}

theorem write_post (i : ℕ) (c : Char) : Post (dirname.write i c)
    (fun b => i < 256 ∧ dirname.write i c = .ok b) (fun _ => ¬i < 256) := by
  unfold CharBuf.write
  split
  next hi => exact post_ok.mpr ⟨hi, rfl⟩
  next hi => exact post_error.mpr hi

theorem intSucc_post (i : ℕ) :
    Post (intSucc i) (fun j => i + 1 < 2 ^ 31 ∧ j = i + 1) (fun _ => ¬i + 1 < 2 ^ 31) := by
  unfold intSucc
  split
  next h => exact post_ok.mpr ⟨h, rfl⟩
  next h => exact post_error.mpr h

theorem CharBuf.Holds.string_chars {b : NameBuf} {s : List Char} (h : b.Holds s) :
    ∃ t, b.string = .ok t ∧ t.chars = s := by
  have hchars : b.chars = s := Terminated.Holds.takeWhile h
  have hfits := Terminated.Holds.fits h
  rw [← hchars] at hfits
  exact ⟨⟨b.chars, b.chars_clean, b.chars_short⟩, if_pos hfits, hchars⟩

theorem CharBuf.Holds.string {b : NameBuf} {s : CString} (h : b.Holds s.chars) :
    b.string = .ok s := by
  obtain ⟨t, hstring, ht⟩ := h.string_chars
  cases s
  cases t
  cases ht
  exact hstring

theorem endName_slash (hrest : path.chars.drop stridx = '/' :: cs) (hb : dirname.Begins p)
    (hp : NUL ∉ p) : Post (endName path (stridx, p.length, dirname))
      (fun r => (p.length + 1 ≤ 255 ∧ stridx + 1 < 2 ^ 31) ∧ r.1 = stridx + 1 ∧
        r.2.Holds (p ++ ['/']))
      (fun _ => ¬(p.length + 1 ≤ 255 ∧ stridx + 1 < 2 ^ 31)) := by
  unfold endName
  dsimp only
  rw [read_of_drop hrest, ok_bind, if_pos rfl]
  apply ((write_post p.length '/').mono_error fun _ he h => by omega).bind
  rintro b ⟨-, hwrite⟩
  apply ((intSucc_post stridx).mono_error fun _ he h => he h.2).bind
  rintro _ ⟨hint, rfl⟩
  apply ((write_post (p.length + 1) NUL).mono_error fun _ he h => by omega).bind
  rintro b' ⟨hnul, hend⟩
  refine post_pure.mpr ⟨⟨by omega, hint⟩, rfl, (hb.write hwrite).terminate ?_ ?_⟩
  · rw [mem_append, not_or]
    exact ⟨hp, by decide⟩
  · rw [length_append, length_singleton]
    exact hend

theorem endName_nil (hle : stridx ≤ path.chars.length) (hrest : path.chars.drop stridx = [])
    (hb : dirname.Begins p) (hp : NUL ∉ p) : Post (endName path (stridx, p.length, dirname))
      (fun r => p.length ≤ 255 ∧ r.1 = stridx ∧ r.2.Holds p) (fun _ => ¬p.length ≤ 255) := by
  unfold endName
  dsimp only
  rw [read_of_drop_nil hle hrest, ok_bind, if_neg (by decide)]
  apply ((write_post p.length NUL).mono_error fun _ he h => by omega).bind
  exact fun b hend => post_pure.mpr ⟨by omega, rfl, hb.terminate hp hend.2⟩

/-- From a name of which `p` has been read. The name is taken whole, if the array has room for it
and `stridx` does not overflow. -/
theorem copyName_post (hrest : path.chars.drop stridx = c :: cs) (hb : dirname.Begins p)
    (hp : NUL ∉ p) (hfuel : cs.length < fuel) :
    Post (copyName path fuel stridx p.length dirname >>= endName path)
      (fun r => (p.length + (nextName (c :: cs)).1.length ≤ 255 ∧
          stridx + (nextName (c :: cs)).1.length < 2 ^ 31) ∧
        r.1 = stridx + (nextName (c :: cs)).1.length ∧ r.2.Holds (p ++ (nextName (c :: cs)).1))
      (fun _ => ¬(p.length + (nextName (c :: cs)).1.length ≤ 255 ∧
        stridx + (nextName (c :: cs)).1.length < 2 ^ 31)) := by
  induction fuel generalizing c cs stridx p dirname with
  | zero => omega
  | succ fuel ih =>
    rw [copyName, read_of_drop hrest, ok_bind]
    by_cases hc : c = '/'
    · rw [if_pos hc]
      subst hc
      exact endName_slash hrest hb hp
    rw [if_neg hc, nextName_of_ne hc, length_cons]
    simp only [bind_assoc]
    apply ((write_post p.length c).mono_error fun _ he h => by omega).bind
    rintro b ⟨-, hwrite⟩
    apply ((intSucc_post stridx).mono_error fun _ he h => by omega).bind
    rintro _ ⟨hint, rfl⟩
    have hbegins := hb.write hwrite
    have hclean : NUL ∉ p ++ [c] := by
      rw [mem_append, mem_singleton, not_or]
      exact ⟨hp, (ne_nul_of_drop hrest).symm⟩
    have hlen : (p ++ [c]).length = p.length + 1 := by
      rw [length_append, length_singleton]
    have hdrop := drop_succ hrest
    rw [← hlen]
    cases cs with
    | nil =>
      have hle := lt_of_drop hrest
      rw [read_of_drop_nil hle hdrop, ok_bind, if_pos rfl]
      have hend := endName_nil hle hdrop hbegins hclean
      apply hend.mono
      · intro r hr
        rw [hlen] at hr
        exact ⟨⟨hr.1, hint⟩, hr.2.1, hr.2.2⟩
      · intro e he
        rw [hlen] at he
        exact fun h => he h.1
    | cons c' cs =>
      rw [read_of_drop hdrop, ok_bind, if_neg (ne_nul_of_drop hdrop)]
      rw [length_cons] at hfuel
      have hgo := ih hdrop hbegins hclean (by omega)
      apply hgo.mono
      · intro r hr
        rw [hlen, append_assoc] at hr
        exact ⟨by omega, by omega, hr.2.2⟩
      · intro e he
        rw [hlen] at he
        omega

theorem readName_post (hrest : path.chars.drop stridx = c :: cs) (dirname : NameBuf) :
    Post (readName path stridx dirname)
      (fun r => ((nextName (c :: cs)).1.length ≤ 255 ∧
          stridx + (nextName (c :: cs)).1.length < 2 ^ 31) ∧
        r.1 = stridx + (nextName (c :: cs)).1.length ∧ r.2.Holds (nextName (c :: cs)).1)
      (fun _ => ¬((nextName (c :: cs)).1.length ≤ 255 ∧
        stridx + (nextName (c :: cs)).1.length < 2 ^ 31)) := by
  have hbegins : dirname.Begins [] := fun x hx => absurd hx (Nat.not_lt_zero x)
  have hfuel : cs.length < path.chars.length + 1 := by
    have hlen := congrArg length hrest
    rw [length_drop, length_cons] at hlen
    omega
  have hpost := copyName_post hrest hbegins not_mem_nil hfuel
  rw [length_nil] at hpost
  simpa only [readName, Nat.zero_add, nil_append] using hpost

end Names

namespace VfsTree
variable {V F : Type} {T : VfsTree V F} {answer : V → CString → Answer V}
  {Fits : V → CString → Prop} {path : CString} {w : NameCursor V F} {d : V} {name : CString}
  {names : List CString} {fuel : ℕ}

/-- The tree answers as `answer` says, and stays in bounds exactly where `Fits` says so. -/
def Realises (T : VfsTree V F) (answer : V → CString → Answer V) (Fits : V → CString → Prop) :
    Prop :=
  ∀ v vnLookup name, T.vnLookup v = some vnLookup → name.chars ≠ [] → name.chars.length ≤ 255 →
    Post (vnLookup name) (fun a => Fits v name ∧ a = answer v name) (fun _ => ¬Fits v name)

/-- The names that are looked at have room in `dirname`, and end before `stridx` overflows; the calls
stay in bounds. -/
def FitsAll (T : VfsTree V F) (Fits : V → CString → Prop) (stridx : ℕ) (l : List (V × CString)) :
    Prop :=
  (∀ c ∈ l, c.2.chars.length ≤ 255) ∧ (∀ c ∈ T.asked l, Fits c.1 c.2) ∧
    stridx + (l.map fun c => c.2.chars.length).sum < 2 ^ 31

theorem asked_cons (c : V × CString) (l : List (V × CString)) :
    T.asked (c :: l) = T.asked [c] ++ T.asked l := List.filter_append [c] l

theorem asked_of_none (h : T.vnLookup d = none) : T.asked [(d, name)] = [] := by
  simp [asked, h]

theorem asked_of_some {f : CString → Except Fault (Answer V)} (h : T.vnLookup d = some f) :
    T.asked [(d, name)] = [(d, name)] := by
  simp [asked, h]

theorem fitsAll_singleton {stridx : ℕ} : T.FitsAll Fits stridx [(d, name)] ↔
    name.chars.length ≤ 255 ∧ (∀ c ∈ T.asked [(d, name)], Fits c.1 c.2) ∧
      stridx + name.chars.length < 2 ^ 31 := by
  unfold FitsAll
  simp

theorem fitsAll_cons {stridx : ℕ} {l : List (V × CString)} :
    T.FitsAll Fits stridx ((d, name) :: l) ↔ T.FitsAll Fits stridx [(d, name)] ∧
      T.FitsAll Fits (stridx + name.chars.length) l := by
  rw [fitsAll_singleton]
  unfold FitsAll
  rw [asked_cons, forall_mem_cons, forall_mem_append, map_cons, sum_cons]
  dsimp only
  constructor
  · intro h
    exact ⟨⟨h.1.1, h.2.1.1, by omega⟩, h.1.2, h.2.1.2, by omega⟩
  · intro h
    exact ⟨⟨h.1.1, h.2.1⟩, ⟨h.1.2.1, h.2.2.1⟩, by omega⟩

theorem enterVnode_eq (T : VfsTree V F) (w : NameCursor V F) (v : V) :
    ∃ vfs, T.enterVnode w v = { w with vfs := vfs, currentVnode := T.enter v } := by
  unfold enterVnode enter
  split
  · exact ⟨w.vfs, rfl⟩
  · exact ⟨_, rfl⟩

/-- What a round gives: the result, or the cursor behind the name. -/
def RoundEnds (T : VfsTree V F) (answer : V → CString → Answer V) (w : NameCursor V F)
    (name : CString) : NameCursor V F ⊕ LookupResult V → Prop
  | .inl w' => T.step answer w.currentVnode name = some w'.currentVnode ∧
      w'.stridx = w.stridx + name.chars.length ∧
      w'.calls = w.calls ++ T.asked [(w.currentVnode, name)]
  | .inr r => T.step answer w.currentVnode name = none ∧ r.vnode = none ∧
      r.calls = w.calls ++ T.asked [(w.currentVnode, name)]

variable [DecidableEq V]

theorem lookupRound_post (hT : T.Realises answer Fits) {c : Char} {cs : List Char}
    (hrest : path.chars.drop w.stridx = c :: cs) (hname : name.chars = (nextName (c :: cs)).1) :
    Post (T.lookupRound path w)
      (fun x => T.FitsAll Fits w.stridx [(w.currentVnode, name)] ∧ T.RoundEnds answer w name x)
      (fun _ => ¬T.FitsAll Fits w.stridx [(w.currentVnode, name)]) := by
  have hread := readName_post hrest w.dirname
  rw [← hname] at hread
  have hne : name.chars ≠ [] := hname ▸ nextName_ne_nil c cs
  rw [fitsAll_singleton]
  apply (hread.mono_error fun e he h => he ⟨h.1, h.2.2⟩).bind
  rintro ⟨stridx, dirname⟩ ⟨⟨hroom, hint⟩, hstridx, hholds⟩
  cases hops : T.vnLookup w.currentVnode with
  | none =>
    rw [asked_of_none hops]
    refine post_pure.mpr ⟨⟨hroom, by simp, hint⟩, ?_, rfl, ?_⟩
    · rw [step, hops]
    · rw [asked_of_none hops, append_nil]
  | some vnLookup =>
    have hstep : T.step answer w.currentVnode name =
        (answer w.currentVnode name).vnode?.map T.enter := by
      rw [step, hops]
    dsimp only
    rw [hholds.string, ok_bind, asked_of_some hops]
    have hcall := hT _ _ _ hops hne hroom
    apply (hcall.mono_error fun e he h => he (h.2.1 _ mem_cons_self)).bind
    rintro _ ⟨hfits, rfl⟩
    have hall : ∀ c ∈ [(w.currentVnode, name)], Fits c.1 c.2 := forall_mem_singleton.mpr hfits
    cases hanswer : answer w.currentVnode name with
    | missing kerrno =>
      refine post_pure.mpr ⟨⟨hroom, hall, hint⟩, ?_, rfl, ?_⟩
      · rw [hstep, hanswer]
        rfl
      · rw [asked_of_some hops]
    | vnode v =>
      refine post_pure.mpr ⟨⟨hroom, hall, hint⟩, ?_⟩
      obtain ⟨vfs, henter⟩ := T.enterVnode_eq
        { w with
          stridx, dirname
          calls := w.calls ++ [(w.currentVnode, name)]
          recycled :=
            if w.currentVnode ≠ T.rootVnode w.vfs ∧ T.vnInactive w.currentVnode then
              w.recycled ++ [w.currentVnode]
            else w.recycled } v
      rw [henter]
      refine ⟨?_, hstridx, ?_⟩
      · rw [hstep, hanswer]
        rfl
      · rw [asked_of_some hops]

theorem lookupLoop_post (hT : T.Realises answer Fits)
    (hnames : names.map chars = splitAfter '/' (path.chars.drop w.stridx))
    (hle : w.stridx ≤ path.chars.length) (hint : w.stridx < 2 ^ 31) (hfuel : names.length < fuel) :
    Post (T.lookupLoop path fuel w)
      (fun r => T.FitsAll Fits w.stridx (T.reached answer w.currentVnode names) ∧
        r.vnode = names.foldlM (T.step answer) w.currentVnode ∧
        r.calls = w.calls ++ T.asked (T.reached answer w.currentVnode names))
      (fun _ => ¬T.FitsAll Fits w.stridx (T.reached answer w.currentVnode names)) := by
  induction names generalizing w fuel with
  | nil =>
    obtain ⟨fuel, rfl⟩ := Nat.exists_eq_succ_of_ne_zero (by omega : fuel ≠ 0)
    have hrest := splitAfter_eq_nil_iff.mp hnames.symm
    rw [lookupLoop, read_of_drop_nil hle hrest, ok_bind, if_pos rfl]
    refine post_pure.mpr ⟨?_, rfl, (append_nil _).symm⟩
    simpa [FitsAll, reached, asked] using hint
  | cons name names ih =>
    obtain ⟨fuel, rfl⟩ := Nat.exists_eq_succ_of_ne_zero (by omega : fuel ≠ 0)
    rw [length_cons] at hfuel
    cases hrest : path.chars.drop w.stridx with
    | nil =>
      rw [hrest] at hnames
      cases hnames
    | cons c cs =>
      rw [hrest, splitAfter_eq_nextName, map_cons] at hnames
      injection hnames with hname hnames
      have hround := lookupRound_post hT hrest hname
      rw [lookupLoop, read_of_drop hrest, ok_bind,
        if_neg (ne_nul_of_drop hrest), reached, fitsAll_cons]
      apply (hround.mono_error fun e he h => he h.1).bind
      rintro (w' | r) ⟨hfit, hends⟩
      · obtain ⟨hstep, hstridx, hcalls⟩ := hends
        have hbehind : path.chars.drop w'.stridx = (nextName (c :: cs)).2 := by
          rw [hstridx, ← drop_drop, hrest, hname, drop_nextName]
        have hle' : w'.stridx ≤ path.chars.length := by
          have hlen := congrArg length ((nextName_append (c :: cs)).trans hrest.symm)
          rw [length_append, length_drop, ← hname] at hlen
          omega
        have hint' : w'.stridx < 2 ^ 31 := hstridx ▸ (fitsAll_singleton.mp hfit).2.2
        have hloop : Post (T.lookupLoop path fuel w') _ _ :=
          ih (by rw [hbehind, hnames]) hle' hint' (by omega)
        rw [hstep, foldlM_cons, hstep, ← hstridx, asked_cons]
        apply hloop.mono
        · intro r hr
          refine ⟨⟨hfit, hr.1⟩, hr.2.1, ?_⟩
          rw [hr.2.2, hcalls, append_assoc]
        · intro e he h
          exact he h.2
      · obtain ⟨hstep, hnone, hcalls⟩ := hends
        rw [hstep, foldlM_cons, hstep]
        refine post_pure.mpr ⟨⟨hfit, ?_⟩, hnone, hcalls⟩
        have hint' := (fitsAll_singleton.mp hfit).2.2
        simpa [FitsAll, asked] using hint'

end VfsTree

section Paths
variable {path : CString} {n : List Char}

section
variable (h : n ∈ splitAfter '/' path.chars.tail)
include h

theorem CString.sublist_of_mem_splitAfter : n.Sublist path.chars := by
  have hflat := sublist_flatten_of_mem h
  rw [splitAfter_flatten] at hflat
  exact hflat.trans (tail_sublist _)

theorem CString.clean_of_mem_splitAfter : NUL ∉ n :=
  fun hnul => path.clean ((sublist_of_mem_splitAfter h).subset hnul)

theorem CString.short_of_mem_splitAfter : n.length < 2 ^ 64 :=
  (sublist_of_mem_splitAfter h).length_le.trans_lt path.short

end

/-- The components of a path, each with the slash behind it. -/
def CString.names (path : CString) : List CString :=
  (splitAfter '/' path.chars.tail).attach.map fun n =>
    ⟨n.1, clean_of_mem_splitAfter n.2, short_of_mem_splitAfter n.2⟩

theorem CString.names_chars (path : CString) :
    path.names.map chars = splitAfter '/' path.chars.tail := by
  rw [names, map_map]
  exact attach_map_subtype_val _

theorem CString.names_mem {name : CString} (h : name ∈ path.names) :
    name.chars ∈ splitAfter '/' path.chars.tail := by
  rw [← path.names_chars]
  exact mem_map_of_mem h

theorem CString.names_flatten (path : CString) :
    (path.names.map chars).flatten = path.chars.tail := by
  rw [path.names_chars, splitAfter_flatten]

theorem CString.names_cutBehind (path : CString) :
    CutBehind '/' (path.names.map chars) := by
  rw [path.names_chars]
  exact splitAfter_cutBehind _ _

end Paths

namespace VfsTree
variable {V F : Type} {T : VfsTree V F} {answer : V → CString → Answer V}
  {Fits : V → CString → Prop} {path : CString} {d v : V} {names : List CString}

/-- The names that are handed to `vn_lookup` are the first ones of the path. -/
theorem asked_starts (T : VfsTree V F) (answer : V → CString → Answer V) (d : V)
    (names : List CString) : (T.asked (T.reached answer d names)).map Prod.snd <+: names := by
  induction names generalizing d with
  | nil => exact prefix_rfl
  | cons name names ih =>
    rw [reached, asked_cons]
    cases hops : T.vnLookup d with
    | none =>
      rw [asked_of_none hops, step, hops]
      exact nil_prefix
    | some vnLookup =>
      rw [asked_of_some hops, singleton_append, map_cons, cons_prefix_cons]
      refine ⟨rfl, ?_⟩
      cases T.step answer d name with
      | none => exact nil_prefix
      | some v => exact ih v

theorem reached_starts (T : VfsTree V F) (answer : V → CString → Answer V) (d : V)
    (names : List CString) : (T.reached answer d names).map Prod.snd <+: names := by
  induction names generalizing d with
  | nil => exact prefix_rfl
  | cons name names ih =>
    rw [reached, map_cons, cons_prefix_cons]
    refine ⟨rfl, ?_⟩
    cases T.step answer d name with
    | none => exact nil_prefix
    | some v => exact ih v

theorem reached_mem {c : V × CString} (h : c ∈ T.reached answer d names) : c.2 ∈ names :=
  (T.reached_starts answer d names).subset (mem_map_of_mem h)

theorem reached_length_le (T : VfsTree V F) (answer : V → CString → Answer V) (d : V)
    (path : CString) : ((T.reached answer d path.names).map fun c => c.2.chars.length).sum ≤
      path.chars.length - 1 := by
  obtain ⟨t, ht⟩ := T.reached_starts answer d path.names
  have hlen := congrArg length path.names_flatten
  rw [← ht, map_append, flatten_append, length_append, length_flatten,
    map_map, map_map, length_tail] at hlen
  exact (Nat.le_add_right _ _).trans hlen.le

theorem reached_of_found (h : names.foldlM (T.step answer) d = some v) :
    T.asked (T.reached answer d names) = T.reached answer d names ∧
      (T.reached answer d names).map Prod.snd = names := by
  induction names generalizing d with
  | nil => exact ⟨rfl, rfl⟩
  | cons name names ih =>
    rw [foldlM_cons] at h
    rw [reached, asked_cons]
    cases hops : T.vnLookup d with
    | none =>
      rw [step, hops] at h
      cases h
    | some vnLookup =>
      cases hstep : T.step answer d name with
      | none =>
        rw [hstep] at h
        cases h
      | some d' =>
        rw [hstep] at h
        rw [asked_of_some hops, singleton_append, map_cons, (ih h).1, (ih h).2]
        exact ⟨rfl, rfl⟩

theorem reached_length (h : path.names.foldlM (T.step answer) d = some v) :
    ((T.reached answer d path.names).map fun c => c.2.chars.length).sum =
      path.chars.length - 1 := by
  have hmap : (T.reached answer d path.names).map (fun c => c.2.chars.length) =
      (path.names.map chars).map length := by
    conv_rhs => rw [← (reached_of_found h).2]
    rw [map_map, map_map]
    rfl
  rw [hmap, ← length_flatten, path.names_flatten, length_tail]

/-- The lookup of a path as the left fold of `vn_lookup` over its components. -/
structure FoldsNames (T : VfsTree V F) (answer : V → CString → Answer V) (path : CString)
    (r : LookupResult V) (names : List CString) : Prop where
  path : (names.map chars).flatten = path.chars.tail
  slashes : CutBehind '/' (names.map chars)
  passed : r.calls.map Prod.snd <+: names
  all : r.vnode ≠ none → r.calls.map Prod.snd = names
  calls : r.calls = T.asked (T.reached answer (T.rootVnode T.rootVFS) names)
  vnode : r.vnode = names.foldlM (T.step answer) (T.rootVnode T.rootVFS)

variable [DecidableEq V]

theorem vnodeLookup_relative (dirname : NameBuf) (h : path.chars.head? ≠ some '/') :
    T.vnodeLookup dirname (some path) = .ok ⟨none, EINVAL, [], []⟩ := by
  have hfirst : path.chars.getD 0 NUL ≠ '/' := by
    rw [getD_eq_getElem?_getD, ← head?_eq_getElem?]
    intro hslash
    cases hhead : path.chars.head? with
    | none =>
      rw [hhead] at hslash
      exact absurd hslash (by decide)
    | some c =>
      rw [hhead] at hslash h
      exact h (congrArg some hslash)
  unfold vnodeLookup
  dsimp only
  rw [read_eq (Nat.zero_le _), ok_bind, if_pos hfirst]
  rfl

theorem vnodeLookup_post (hT : T.Realises answer Fits) (dirname : NameBuf)
    (hroot : path.chars.head? = some '/') :
    Post (T.vnodeLookup dirname (some path))
      (fun r => T.FitsAll Fits 1 (T.reached answer (T.rootVnode T.rootVFS) path.names) ∧
        T.FoldsNames answer path r path.names)
      (fun _ => ¬T.FitsAll Fits 1 (T.reached answer (T.rootVnode T.rootVFS) path.names)) := by
  obtain ⟨rest, hrest⟩ := head?_eq_some_iff.mp hroot
  have hslash : path.chars.drop 0 = '/' :: rest := hrest
  have htail : path.chars.drop 1 = path.chars.tail := drop_one
  have hfuel : path.names.length < path.chars.length + 1 := by
    have hle := length_splitAfter_le '/' path.chars.tail
    rw [← path.names_chars, length_map, length_tail] at hle
    omega
  unfold vnodeLookup
  dsimp only
  rw [read_of_drop hslash, ok_bind, if_neg (by simp)]
  have hloop : Post (T.lookupLoop path (path.chars.length + 1)
      ⟨T.rootVFS, T.rootVnode T.rootVFS, 1, dirname, [], []⟩) _ _ :=
    lookupLoop_post hT (by rw [htail, path.names_chars]) (lt_of_drop hslash)
      (show 1 < 2 ^ 31 by decide) hfuel
  apply hloop.mono
  · intro r hr
    obtain ⟨hfits, hvnode, hcalls⟩ := hr
    rw [nil_append] at hcalls
    refine ⟨hfits, path.names_flatten, path.names_cutBehind, ?_, ?_, hcalls, hvnode⟩
    · rw [hcalls]
      exact T.asked_starts answer _ _
    · intro hfound
      obtain ⟨v, hv⟩ := Option.ne_none_iff_exists'.mp hfound
      have hreached := reached_of_found (hvnode.symm.trans hv)
      rw [hcalls, hreached.1, hreached.2]
  · intro e he
    exact he

end VfsTree

section Fold
variable {V F : Type} [DecidableEq V]

/-- The lookup is the fold unless `stridx` overflows: the names that are looked at, with the slash
in front of them, are shorter than 2 ^ 31 characters. -/
theorem vnode_lookup_folds_iff (T : VfsTree V F) (answer : V → CString → Answer V)
    (hT : ∀ v vnLookup name, T.vnLookup v = some vnLookup → vnLookup name = .ok (answer v name))
    (dirname : NameBuf) (path : CString) (hroot : path.chars.head? = some '/')
    (hshort : ∀ c ∈ path.chars.splitOn '/', c.length < 255) :
    (∃ r names, T.vnodeLookup dirname (some path) = .ok r ∧ T.FoldsNames answer path r names) ↔
      1 + ((T.reached answer (T.rootVnode T.rootVFS) path.names).map
        fun c => c.2.chars.length).sum < 2 ^ 31 := by
  have hreal : T.Realises answer fun _ _ => True := by
    intro v vnLookup name hops _ _
    rw [hT v vnLookup name hops, post_ok]
    exact ⟨trivial, rfl⟩
  have hroom : ∀ c ∈ T.reached answer (T.rootVnode T.rootVFS) path.names,
      c.2.chars.length ≤ 255 := by
    intro c hc
    apply length_le_of_splitOn _ (names_mem (VfsTree.reached_mem hc))
    obtain ⟨rest, hrest⟩ := head?_eq_some_iff.mp hroot
    intro m hm
    apply hshort m
    have hsplit : ('/' :: rest).splitOn '/' = [].splitOn '/' ++ rest.splitOn '/' :=
      splitOn_append_cons_self [] rest
    rw [hrest, tail_cons] at hm
    rw [hrest, hsplit]
    exact mem_append_right _ hm
  have hpost := VfsTree.vnodeLookup_post hreal dirname hroot
  constructor
  · rintro ⟨r, names, hcall, -⟩
    exact (hpost.of_ok hcall).1.2.2
  · intro hint
    have hfits : T.FitsAll (fun _ _ => True) 1
        (T.reached answer (T.rootVnode T.rootVFS) path.names) :=
      ⟨hroom, fun _ _ => trivial, hint⟩
    obtain ⟨r, hcall, -, hfolds⟩ := hpost.returns_of_not fun e he => he hfits
    exact ⟨r, path.names, hcall, hfolds⟩

end Fold

/-- A tree of one vnode, in which every name leads back to it. -/
def oneVnode : VfsTree Unit Unit where
  rootVFS := ()
  rootVnode _ := ()
  vfsMountedHere _ := none
  vnLookup _ := some fun _ => .ok (.vnode ())
  vnInactive _ := false

def shortPath : CString := ⟨"/a/b".toList, by decide, by decide⟩

theorem vnode_lookup_folds_short : ∃ r names,
    oneVnode.vnodeLookup ⟨fun _ => 'x'⟩ (some shortPath) = .ok r ∧
      oneVnode.FoldsNames (fun _ _ => .vnode ()) shortPath r names := by
  apply (vnode_lookup_folds_iff oneVnode (fun _ _ => .vnode ()) _ ⟨fun _ => 'x'⟩ shortPath rfl
    (by decide)).mpr
  · decide
  · intro v vnLookup name hops
    cases hops
    rfl

theorem slashes_short : (List.replicate (2 ^ 31) '/').length < 2 ^ 64 := by
  rw [length_replicate]
  decide

theorem slashes_clean : NUL ∉ List.replicate (2 ^ 31) '/' := by
  rw [mem_replicate]
  decide

def slashes : CString := ⟨List.replicate (2 ^ 31) '/', slashes_clean, slashes_short⟩

theorem splitOn_slashes (n : ℕ) :
    (List.replicate n '/').splitOn '/' = List.replicate (n + 1) [] := by
  induction n with
  | zero => rfl
  | succ n ih =>
    have hsplit : ('/' :: replicate n '/').splitOn '/' =
        [].splitOn '/' ++ (replicate n '/').splitOn '/' := splitOn_append_cons_self [] _
    rw [replicate_succ, hsplit, ih]
    rfl

theorem oneVnode_foldlM (names : List CString) :
    names.foldlM (oneVnode.step fun _ _ => .vnode ()) () = some () := by
  induction names with
  | nil => rfl
  | cons name names ih => exact ih

theorem vnode_lookup_folds_overflow : slashes.chars.head? = some '/' ∧
    (∀ c ∈ slashes.chars.splitOn '/', c.length < 255) ∧
    ¬∃ r names, oneVnode.vnodeLookup ⟨fun _ => 'x'⟩ (some slashes) = .ok r ∧
      oneVnode.FoldsNames (fun _ _ => .vnode ()) slashes r names := by
  have hroot : slashes.chars.head? = some '/' := by
    rw [slashes, head?_replicate, if_neg (by decide)]
  refine ⟨hroot, ?_, ?_⟩
  · intro c hc
    rw [slashes, splitOn_slashes] at hc
    rw [eq_of_mem_replicate hc]
    decide
  · rintro ⟨r, names, hcall, -⟩
    have hreal : oneVnode.Realises (fun _ _ => .vnode ()) fun _ _ => True := by
      intro v vnLookup name hops _ _
      cases hops
      exact post_ok.mpr ⟨trivial, rfl⟩
    have hfits := ((VfsTree.vnodeLookup_post hreal ⟨fun _ => 'x'⟩ hroot).of_ok hcall).1.2.2
    have hsum : ((oneVnode.reached (fun _ _ => .vnode ()) (oneVnode.rootVnode oneVnode.rootVFS)
        slashes.names).map fun c => c.2.chars.length).sum = slashes.chars.length - 1 :=
      VfsTree.reached_length (oneVnode_foldlM _)
    have hlen : slashes.chars.length = 2 ^ 31 := length_replicate
    omega

end GarnOS
