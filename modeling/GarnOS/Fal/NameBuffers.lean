import GarnOS.Fal.NameLookup
import GarnOS.Fal.PathBuffer

/-! The arrays in which a lookup puts names together: `dirname` of `vnode_lookup`, and `fullname` and
`lookFor` of the `vn_lookup` of each driver. -/
namespace GarnOS
open Outcome Terminated List

/-- A driver with what its search gives behind the open vnodes: `initrd_lookup` searches the archive
for the full name, `fat_lookup` the clusters of the directory for the name without its slash;
`devfs_lookup` knows one name. -/
inductive Driver (V : Type) where
  | initrd (find : List Char → Answer V)
  | fat (find : List Char → Answer V)
  | devfs (tty0 : V)

/-- What the drivers read of a directory, with what `vnode_list_search_by_filename` finds. Its name
stands in an array of 256 characters. -/
structure Directory (V : Type) where
  filename : CString
  fits : filename.chars.length < 256
  type : VnodeType
  listed : List Char → Option V
  driver : Driver V

def appendName (fullname : NameBuf) (filename name : CString) : Except Fault NameBuf := do
  let fullname ← fullname.memcpyFrom 0 filename ((filename.strlen + 1) % 2 ^ 32)
  fullname.memcpyFrom filename.strlen name ((name.strlen + 1) % 2 ^ 32)

def trimName (lookFor : NameBuf) (name : CString) : Except Fault NameBuf := do
  let lookFor ← lookFor.memcpyFrom 0 name ((name.strlen + 1) % 2 ^ 32)
  let last := ((← lookFor.strlen 0) + 2 ^ 32 - 1) % 2 ^ 32
  if (← lookFor.read last) = '/' then lookFor.write last NUL else return lookFor

namespace Directory
variable {V : Type}

/-- What the `vn_lookup` of the drivers share; `own` is the driver's own search. -/
def lookupWith (d : Directory V) (own : NameBuf → Except Fault (Answer V)) (fullname : NameBuf)
    (name : CString) : Except Fault (Answer V) := do
  if d.type ≠ .dir then return .missing (some ENOTDIR)
  else
    let fullname ← appendName fullname d.filename name
    match d.listed (← fullname.string).chars with
    | some v => return .vnode v
    | none => own fullname

def initrdLookup (d : Directory V) (find : List Char → Answer V) (fullname : NameBuf)
    (name : CString) : Except Fault (Answer V) :=
  d.lookupWith (fun fullname => do return find (← fullname.string).chars) fullname name

def fatLookup (d : Directory V) (find : List Char → Answer V) (fullname lookFor : NameBuf)
    (name : CString) : Except Fault (Answer V) :=
  d.lookupWith (fun _ => do
    let lookFor ← trimName lookFor name
    return find (← lookFor.string).chars) fullname name

def devfsLookup (d : Directory V) (tty0 : V) (fullname lookFor : NameBuf) (name : CString) :
    Except Fault (Answer V) :=
  d.lookupWith (fun _ => do
    let lookFor ← trimName lookFor name
    if d.filename.chars = [] ∧ (← lookFor.string).chars = "tty0".toList then return .vnode tty0
    else return .missing none) fullname name

/-- The `vn_lookup` of the directory's driver. The arrays are not initialised. -/
def vnLookup (d : Directory V) (fullname lookFor : NameBuf) (name : CString) :
    Except Fault (Answer V) :=
  match d.driver with
  | .initrd find => d.initrdLookup find fullname name
  | .fat find => d.fatLookup find fullname lookFor name
  | .devfs tty0 => d.devfsLookup tty0 fullname lookFor name

end Directory

def trimSlash (name : List Char) : List Char :=
  if name.getLast? = some '/' then name.dropLast else name

namespace Directory
variable {V : Type}

def find (d : Directory V) (name : List Char) : Answer V :=
  match d.driver with
  | .initrd find => find (d.filename.chars ++ name)
  | .fat find => find (trimSlash name)
  | .devfs tty0 =>
    if d.filename.chars = [] ∧ trimSlash name = "tty0".toList then .vnode tty0 else .missing none

/-- What a directory answers: a function of the name. -/
def answer (d : Directory V) (name : CString) : Answer V :=
  if d.type ≠ .dir then .missing (some ENOTDIR)
  else
    match d.listed (d.filename.chars ++ name.chars) with
    | some v => .vnode v
    | none => d.find name.chars

/-- There is room in `fullname` for the name behind the directory's own. -/
def Room (d : Directory V) (name : CString) : Prop :=
  d.type = .dir → d.filename.chars.length + name.chars.length ≤ 255

end Directory

/-- A tree of directories of the three drivers. A vnode without `vn_lookup` is no directory of
theirs. Each call finds its arrays as the stack left them. -/
structure DirTree (V F : Type) where
  rootVFS : F
  rootVnode : F → V
  vfsMountedHere : V → Option F
  directory : V → Option (Directory V)
  vnInactive : V → Bool
  fullname : V → CString → NameBuf
  lookFor : V → CString → NameBuf

namespace DirTree
variable {V F : Type}

def toTree (T : DirTree V F) : VfsTree V F where
  rootVFS := T.rootVFS
  rootVnode := T.rootVnode
  vfsMountedHere := T.vfsMountedHere
  vnLookup v :=
    (T.directory v).map fun d name => d.vnLookup (T.fullname v name) (T.lookFor v name) name
  vnInactive := T.vnInactive

def answer (T : DirTree V F) (v : V) (name : CString) : Answer V :=
  match T.directory v with
  | none => .missing none
  | some d => d.answer name

/-- The names that a lookup looks at, each with its directory. -/
def reached (T : DirTree V F) (path : CString) : List (V × CString) :=
  T.toTree.reached T.answer (T.rootVnode T.rootVFS) path.names

end DirTree

section Copies
variable {b : NameBuf} {s p : List Char} {filename name : CString}

theorem CharBuf.Holds.begins (h : b.Holds s) (hp : p <+: s) : b.Begins p := by
  obtain ⟨t, rfl⟩ := hp
  intro x hx
  rw [Terminated.Holds.value h x (by rw [length_append]; omega), getD_append _ _ _ _ hx]

theorem CString.strlen_of_short {s : CString} (h : s.chars.length ≤ 255) :
    s.strlen = s.chars.length ∧ (s.strlen + 1) % 2 ^ 32 = s.chars.length + 1 := by
  unfold CString.strlen
  omega

theorem copy_holds (b : NameBuf) (h : name.chars.length ≤ 255) :
    Post (b.memcpyFrom 0 name ((name.strlen + 1) % 2 ^ 32)) (fun b' => b'.Holds name.chars)
      (fun _ => False) := by
  rw [(CString.strlen_of_short h).2]
  apply (CharBuf.memcpyFrom_post le_rfl (by omega)).mono
  · intro b' hb'
    have hempty : b.Begins [] := fun x hx => absurd hx (Nat.not_lt_zero x)
    exact hempty.append not_mem_nil (by simpa using Nat.lt_succ_of_le h) hb'
  · intro e he
    exact he

theorem appendName_post (b : NameBuf) (hfile : filename.chars.length ≤ 255)
    (hname : name.chars.length ≤ 255) :
    Post (appendName b filename name)
      (fun b' => filename.chars.length + name.chars.length ≤ 255 ∧
        b'.Holds (filename.chars ++ name.chars))
      (fun _ => ¬filename.chars.length + name.chars.length ≤ 255) := by
  apply ((copy_holds b hfile).mono_error fun e he => he.elim).bind
  intro b₁ hb₁
  rw [(CString.strlen_of_short hname).2, (CString.strlen_of_short hfile).1]
  by_cases hfit : filename.chars.length + name.chars.length ≤ 255
  · apply (CharBuf.memcpyFrom_post le_rfl (by omega)).mono
    · intro b₂ hb₂
      refine ⟨hfit, ?_⟩
      exact (hb₁.begins prefix_rfl).append filename.clean (by omega) hb₂
    · intro e he
      exact he.elim
  · constructor
    · intro b₂ hcopy
      rcases CharBuf.memcpyFrom_fits hcopy with hzero | hfits
      all_goals omega
    · intro e _
      exact hfit

theorem trimName_post (b : NameBuf) (hne : name.chars ≠ []) (hname : name.chars.length ≤ 255) :
    Post (trimName b name) (fun b' => b'.Holds (trimSlash name.chars)) (fun _ => False) := by
  have hpos := length_pos_iff.mpr hne
  have hlast : (name.chars.length + 2 ^ 32 - 1) % 2 ^ 32 = name.chars.length - 1 := by omega
  have hget : name.chars.getD (name.chars.length - 1) NUL = name.chars.getLast hne := by
    rw [getD_eq_getElem _ _ (by omega), getLast_eq_getElem]
  unfold trimName trimSlash
  apply (copy_holds b hname).bind
  intro b₁ hb₁
  rw [hb₁.strlen (by decide) (Nat.zero_le _), ok_bind, Nat.sub_zero, hlast]
  dsimp only
  rw [hb₁.read (by omega), ok_bind, hget, getLast?_eq_some_getLast hne]
  by_cases hslash : name.chars.getLast hne = '/'
  · rw [if_pos hslash, if_pos (congrArg some hslash), ← length_dropLast]
    have hwrite : b₁.write name.chars.dropLast.length NUL = _ :=
      CharBuf.write_eq (by rw [length_dropLast]; omega)
    have hclean : NUL ∉ name.chars.dropLast := fun h => name.clean (mem_of_mem_dropLast h)
    rw [hwrite, post_ok]
    exact (hb₁.begins ( dropLast_prefix _)).terminate hclean hwrite
  · rw [if_neg hslash, if_neg fun h => hslash (Option.some.inj h)]
    exact post_pure.mpr hb₁

end Copies

namespace Directory
variable {V : Type} {d : Directory V} {name : CString}

theorem lookupWith_post {own : NameBuf → Except Fault (Answer V)} (fullname : NameBuf)
    (hname : name.chars.length ≤ 255)
    (hown : ∀ b : NameBuf, b.Holds (d.filename.chars ++ name.chars) →
      Post (own b) (· = d.find name.chars) fun _ => False) :
    Post (d.lookupWith own fullname name) (fun a => d.Room name ∧ a = d.answer name)
      (fun _ => ¬d.Room name) := by
  unfold lookupWith answer Room
  by_cases hdir : d.type = .dir
  · rw [if_neg (not_not.mpr hdir), if_neg (not_not.mpr hdir)]
    have happend := appendName_post fullname (Nat.le_of_lt_succ d.fits) hname
    apply (happend.mono_error fun e he h => he (h hdir)).bind
    rintro b ⟨hroom, hholds⟩
    obtain ⟨t, hstring, ht⟩ := hholds.string_chars
    rw [hstring, ok_bind, ht]
    cases d.listed (d.filename.chars ++ name.chars) with
    | some v => exact post_pure.mpr ⟨fun _ => hroom, rfl⟩
    | none =>
      apply (hown b hholds).mono
      · intro a ha
        exact ⟨fun _ => hroom, ha⟩
      · intro e he
        exact he.elim
  · rw [if_pos hdir, if_pos hdir]
    exact post_pure.mpr ⟨fun h => absurd h hdir, rfl⟩

theorem vnLookup_post (d : Directory V) (fullname lookFor : NameBuf) (hne : name.chars ≠ [])
    (hname : name.chars.length ≤ 255) :
    Post (d.vnLookup fullname lookFor name) (fun a => d.Room name ∧ a = d.answer name)
      (fun _ => ¬d.Room name) := by
  unfold vnLookup
  cases hdriver : d.driver with
  | initrd find =>
    apply lookupWith_post fullname hname
    intro b hb
    obtain ⟨t, hstring, ht⟩ := hb.string_chars
    rw [hstring, ok_bind, ht, Directory.find, hdriver]
    exact post_pure.mpr rfl
  | fat | devfs =>
    apply lookupWith_post fullname hname
    intro b _
    apply (trimName_post lookFor hne hname).bind
    intro b' hb'
    obtain ⟨t, hstring, ht⟩ := hb'.string_chars
    rw [hstring, ok_bind, ht, Directory.find, hdriver]
    dsimp only
    repeat' split
    all_goals exact post_pure.mpr rfl

end Directory

namespace DirTree
variable {V F : Type} {T : DirTree V F} {path : CString}

theorem toTree_vnLookup (T : DirTree V F) (v : V) : T.toTree.vnLookup v =
    (T.directory v).map fun d name => d.vnLookup (T.fullname v name) (T.lookFor v name) name := rfl

theorem realises (T : DirTree V F) : T.toTree.Realises T.answer
    fun v name => ∀ d, T.directory v = some d → d.Room name := by
  intro v vnLookup name hops hne hname
  rw [toTree_vnLookup] at hops
  cases hdir : T.directory v with
  | none =>
    rw [hdir] at hops
    cases hops
  | some d =>
    rw [hdir] at hops
    cases hops
    have hanswer : T.answer v name = d.answer name := by rw [answer, hdir]
    rw [hanswer]
    apply (d.vnLookup_post (T.fullname v name) (T.lookFor v name) hne hname).mono
    · intro a ha
      refine ⟨fun d' hd' => ?_, ha.2⟩
      cases hdir.symm.trans hd'
      exact ha.1
    · intro e he h
      exact he (h d hdir)

/-- Every name that a lookup of `path` looks at has room in `dirname`, and behind the name of its
directory in `fullname`. -/
def NamesFit (T : DirTree V F) (path : CString) : Prop :=
  ∀ c ∈ T.reached path,
    c.2.chars.length ≤ 255 ∧ ∀ d, T.directory c.1 = some d → d.Room c.2

theorem fitsAll_iff (hmax : path.chars.length ≤ PATH_MAX) :
    T.toTree.FitsAll (fun v name => ∀ d, T.directory v = some d → d.Room name) 1
      (T.reached path) ↔ T.NamesFit path := by
  have hlength := T.toTree.reached_length_le T.answer (T.rootVnode T.rootVFS) path
  have hint : 1 + ((T.reached path).map fun c => c.2.chars.length).sum < 2 ^ 31 := by
    unfold PATH_MAX at hmax
    unfold DirTree.reached
    omega
  constructor
  · intro h c hc
    refine ⟨h.1 c hc, ?_⟩
    intro d hd
    apply h.2.1 c _ d hd
    rw [VfsTree.asked, mem_filter, toTree_vnLookup, hd]
    exact ⟨hc, rfl⟩
  · intro h
    refine ⟨fun c hc => (h c hc).1, ?_, hint⟩
    intro c hc
    exact (h c (mem_filter.mp hc).1).2

variable [DecidableEq V]

theorem vnodeLookup_fits (dirname : NameBuf) (hmax : path.chars.length ≤ PATH_MAX)
    (hroot : path.chars.head? = some '/') :
    Post (T.toTree.vnodeLookup dirname (some path)) (fun _ => T.NamesFit path)
      (fun _ => ¬T.NamesFit path) := by
  rw [← fitsAll_iff hmax]
  apply (VfsTree.vnodeLookup_post T.realises dirname hroot).mono
  · intro r hr
    exact hr.1
  · intro e he
    exact he

end DirTree

/-- A lookup stays inside `dirname`, `fullname` and `lookFor` exactly if every name that it looks at
fits. -/
theorem name_buffers_iff {V F : Type} [DecidableEq V] (T : DirTree V F) (dirname : NameBuf)
    (path : CString) (hmax : path.chars.length ≤ PATH_MAX) :
    (∃ r, T.toTree.vnodeLookup dirname (some path) = .ok r) ↔
      (path.chars.head? = some '/' → T.NamesFit path) := by
  constructor
  · rintro ⟨r, hcall⟩ hroot
    exact (DirTree.vnodeLookup_fits dirname hmax hroot).of_ok hcall
  · intro h
    by_cases hroot : path.chars.head? = some '/'
    · have hpost := DirTree.vnodeLookup_fits (T := T) dirname hmax hroot
      obtain ⟨r, hcall, -⟩ := hpost.returns_of_not fun e he => he (h hroot)
      exact ⟨r, hcall⟩
    · exact ⟨_, VfsTree.vnodeLookup_relative dirname hroot⟩

def emptyName : CString := ⟨[], by decide, by decide⟩

/-- The root of an archive in which every name leads back to the root. -/
def bareTree : DirTree Unit Unit where
  rootVFS := ()
  rootVnode _ := ()
  vfsMountedHere _ := none
  directory _ := some ⟨emptyName, by decide, .dir, fun _ => none, .initrd fun _ => .vnode ()⟩
  vnInactive _ := false
  fullname _ _ := ⟨fun _ => 'x'⟩
  lookFor _ _ := ⟨fun _ => 'x'⟩

theorem name_buffers_short :
    ∃ r, bareTree.toTree.vnodeLookup ⟨fun _ => 'x'⟩ (some shortPath) = .ok r := by
  apply (name_buffers_iff bareTree ⟨fun _ => 'x'⟩ shortPath (by decide)).mpr
  intro _ c hc
  have hshort : ∀ name ∈ shortPath.names, name.chars.length ≤ 255 := by decide
  have hname := hshort c.2 (VfsTree.reached_mem hc)
  refine ⟨hname, ?_⟩
  intro d hd
  cases hd
  intro _
  exact (Nat.zero_add _).trans_le hname

def nestedChars : List Char := List.replicate 200 'a' ++ ['/']

/-- The root of a FAT volume, and a directory in it. -/
def nestedTree : DirTree Bool Unit where
  rootVFS := ()
  rootVnode _ := false
  vfsMountedHere _ := none
  directory v :=
    if v then
      some ⟨⟨nestedChars, by decide +kernel, by decide +kernel⟩, by decide +kernel, .dir,
        fun _ => none, .fat fun _ => .missing (some ENOENT)⟩
    else some ⟨emptyName, by decide, .dir, fun _ => none, .fat fun _ => .vnode true⟩
  vnInactive _ := true
  fullname _ _ := ⟨fun _ => 'x'⟩
  lookFor _ _ := ⟨fun _ => 'x'⟩

def longChars : List Char := '/' :: List.replicate 256 'a'

def longNamePath : CString := ⟨longChars, by decide +kernel, by decide +kernel⟩

def deepChars : List Char := '/' :: (nestedChars ++ List.replicate 100 'b')

def nestedPath : CString := ⟨deepChars, by decide +kernel, by decide +kernel⟩

/-- A name of 256 characters runs out of `dirname`, and one of 100 characters in a directory with a
name of 201 out of `fullname`. -/
theorem name_buffers_overrun :
    (longNamePath.chars.length ≤ PATH_MAX ∧
      ∀ dirname r, bareTree.toTree.vnodeLookup dirname (some longNamePath) ≠ .ok r) ∧
    nestedPath.chars.length ≤ PATH_MAX ∧
      ∀ dirname r, nestedTree.toTree.vnodeLookup dirname (some nestedPath) ≠ .ok r := by
  have hlen : longNamePath.chars.length ≤ PATH_MAX := by decide +kernel
  have hlen' : nestedPath.chars.length ≤ PATH_MAX := by decide +kernel
  refine ⟨⟨hlen, ?_⟩, hlen', ?_⟩
  · intro dirname r hcall
    have hfit := (DirTree.vnodeLookup_fits dirname hlen rfl).of_ok hcall
    have hlong : ∃ c ∈ bareTree.reached longNamePath, 255 < c.2.chars.length := by decide +kernel
    obtain ⟨c, hc, hlt⟩ := hlong
    exact absurd (hfit c hc).1 (by omega)
  · intro dirname r hcall
    have hfit := (DirTree.vnodeLookup_fits dirname hlen' rfl).of_ok hcall
    have hlong : ∃ c ∈ nestedTree.reached nestedPath, c.1 = true ∧ 100 ≤ c.2.chars.length := by
      decide +kernel
    obtain ⟨⟨v, name⟩, hc, rfl, hlt⟩ := hlong
    have hname : nestedChars.length = 201 := by decide +kernel
    have hroom := (hfit _ hc).2 _ rfl rfl
    dsimp only at hroom hlt
    omega

end GarnOS
