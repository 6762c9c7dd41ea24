import GarnOS.Fal.Vnode
import GarnOS.Mem.CharBuf

/-! `device_driver_autoreg`: the list of drivers is read byte by byte into one buffer, whose index
goes back to the start after 128 bytes. -/
namespace GarnOS.Autoreg
open Function Outcome List

structure State where
  str : CharBuf 128
  ptr : ℕ
  tempPtr : ℕ
  /-- The paths that went to `device_driver_register`. -/
  calls : List (List Char)

/-- One round of the loop. The path goes into a block of 256 bytes. -/
def readByte (path : List Char) (a : State) (c : Char) : Except Fault State := do
  let str ← a.str.write a.ptr c
  if (← str.read a.ptr) = '\n' then
    if a.ptr = 0 then return { a with str }
    else
      let str ← str.write a.ptr NUL
      let tempPtr := (path.idxOf? '/').elim a.tempPtr (· + 1)
      let len ← str.strlen 0
      if 256 < tempPtr + (len + 1) then .error (.overrun 256)
      else
        let regPath := path.take tempPtr ++ (List.range len).map str.data
        return ⟨str, 0, tempPtr, a.calls ++ [regPath]⟩
  else return { a with str, ptr := if a.ptr + 1 ≥ 128 then 0 else a.ptr + 1 }

/-- The result and the registered paths. `str` starts with whatever the stack holds. What the
registered drivers and `vnode_close` do to the vnodes is left out. -/
def deviceDriverAutoreg (k : Kmalloc) (s : Fal) (contents : ℕ → List Char) (str : CharBuf 128)
    (path : List Char) : Except Fault (ℤ × List (List Char)) := do
  match ← vnodeOpen k s path 0 0 with
  | (none, _) => return (-1, [])
  | (some file, _) =>
    let a ← (contents file).foldlM (readByte path) ⟨str, 0, 0, []⟩
    return (0, a.calls)

/-- The lines that end with a newline, where `cur` is read of the first. -/
def lines : List Char → List Char → List (List Char)
  | _, [] => []
  | cur, c :: cs => if c = '\n' then cur :: lines [] cs else lines (cur ++ [c]) cs

/-- What the list asks for. -/
def wanted (line : List Char) : List (List Char) :=
  if line ≠ [] ∧ line.length ≤ 127 then ['/' :: line] else []

/-- What the buffer holds of a line. -/
def kept (cur : List Char) : List Char := cur.drop (cur.length / 128 * 128)

def registered (line : List Char) : List (List Char) :=
  if kept line ≠ [] then ['/' :: kept line] else []

section Loop
variable {a : State} {cur : List Char} {c : Char} {path : List Char}

/-- The buffer while the line `cur` is read. -/
structure Buffers (a : State) (cur : List Char) : Prop where
  clean : NUL ∉ cur
  ptr : a.ptr = cur.length % 128
  value : ∀ i < a.ptr, a.str.data i = (kept cur).getD i NUL

theorem length_kept (cur : List Char) : (kept cur).length = cur.length % 128 := by
  rw [kept, length_drop]
  omega

theorem buffers_nil (a : State) (h : a.ptr = 0) : Buffers a [] :=
  ⟨by simp, h, fun i hi => by omega⟩

theorem Buffers.readByte (h : Buffers a cur) (hc : c ≠ '\n') (hnul : c ≠ NUL) :
    ∃ a', readByte path a c = .ok a' ∧ a'.calls = a.calls ∧ Buffers a' (cur ++ [c]) := by
  have hptr := h.ptr
  rw [Autoreg.readByte, CharBuf.write_eq (by omega), ok_bind, CharBuf.read_eq (by omega), ok_bind]
  rw [if_neg (by simpa using hc)]
  refine ⟨_, rfl, rfl, by simp [h.clean, hnul.symm], ?_, fun i hi => ?_⟩
  · simp only [length_append, length_singleton]
    split <;> omega
  · have hshort : a.ptr + 1 < 128 ∧ i < a.ptr + 1 := by
      dsimp only at hi
      split at hi <;> omega
    have hsame : kept (cur ++ [c]) = kept cur ++ [c] := by
      rw [kept, kept, length_append, length_singleton,
        show (cur.length + 1) / 128 = cur.length / 128 by omega,
        drop_append_of_le_length (by omega)]
    have hlen := length_kept cur
    rcases (show i < a.ptr ∨ i = a.ptr by omega) with hlt | rfl
    · rw [hsame, getD_append _ _ _ _ (by omega), ← h.value i hlt]
      exact update_of_ne hlt.ne ..
    · simp [hsame, hlen, h.ptr]

theorem Buffers.endLine (h : Buffers a cur) (hpath : path.head? = some '/') :
    ∃ a', Autoreg.readByte path a '\n' = .ok a' ∧ a'.calls = a.calls ++ registered cur ∧
      Buffers a' [] := by
  have hptr := h.ptr
  have hlen := length_kept cur
  obtain ⟨rest, rfl⟩ : ∃ rest, path = '/' :: rest := by
    cases path <;> simp_all
  rw [Autoreg.readByte, CharBuf.write_eq (by omega), ok_bind, CharBuf.read_eq (by omega), ok_bind]
  rw [if_pos (update_self ..), registered]
  by_cases hzero : a.ptr = 0
  · have hnone : kept cur = [] := length_eq_zero_iff.mp (by omega)
    rw [if_pos hzero, if_neg (not_not.mpr hnone)]
    exact ⟨_, rfl, by simp, buffers_nil _ hzero⟩
  · have hsome : kept cur ≠ [] := fun hnone => by
      rw [hnone, length_nil] at hlen
      omega
    rw [if_neg hzero, if_pos hsome, CharBuf.write_eq (by omega), ok_bind]
    set w : CharBuf 128 := ⟨_⟩ with hw
    have hholds : w.Holds (kept cur) := by
      refine ⟨by omega, fun hmem => h.clean (mem_of_mem_drop hmem), fun i hi => ?_⟩
      rcases (show i < a.ptr ∨ i = a.ptr by omega) with hlt | rfl
      · simp [hw, update_of_ne hlt.ne, h.value i hlt]
      · simp [hw, hlen, hptr]
    rw [hholds.strlen (by decide) (Nat.zero_le _), ok_bind]
    have htext := Terminated.Holds.map_range hholds
    simp only [Nat.sub_zero, htext, idxOf?_cons, beq_self_eq_true, if_true, Option.elim_some]
    rw [if_neg (by omega)]
    exact ⟨_, rfl, rfl, buffers_nil _ rfl⟩

/-- By induction on the file: each newline registers what the buffer holds of its line. -/
theorem Buffers.foldlM (hpath : path.head? = some '/') (file : List Char) (hfile : NUL ∉ file)
    (h : Buffers a cur) : ∃ a', file.foldlM (Autoreg.readByte path) a = .ok a' ∧
      a'.calls = a.calls ++ (lines cur file).flatMap registered := by
  induction file generalizing a cur with
  | nil => exact ⟨a, rfl, by simp [lines]⟩
  | cons c cs ih =>
    rw [mem_cons, not_or] at hfile
    by_cases hc : c = '\n'
    · subst hc
      obtain ⟨a', hstep, hcalls, ha'⟩ := h.endLine hpath
      obtain ⟨a'', hrest, hall⟩ := ih hfile.2 ha'
      exact ⟨a'', by rw [foldlM_cons, hstep, ok_bind, hrest], by simp [lines, hall, hcalls]⟩
    · obtain ⟨a', hstep, hcalls, ha'⟩ := h.readByte hc (Ne.symm hfile.1)
      obtain ⟨a'', hrest, hall⟩ := ih hfile.2 ha'
      exact ⟨a'', by rw [foldlM_cons, hstep, ok_bind, hrest], by simp [lines, hc, hall, hcalls]⟩

/-- Every line gives at most one path, and a short one the path that is wanted. -/
theorem wanted_eq_registered_iff (l : List Char) :
    wanted l = registered l ↔ l.length ≤ 127 ∨ 128 ∣ l.length := by
  have hlen := length_kept l
  by_cases hshort : l.length ≤ 127
  · have hkept : kept l = l := by simp [kept, Nat.div_eq_of_lt (show l.length < 128 by omega)]
    simp [wanted, registered, hkept, hshort]
  · rw [wanted, if_neg (by omega), registered]
    by_cases hnone : kept l = []
    · rw [hnone, length_nil] at hlen
      simp [hnone]
      omega
    · rw [if_pos hnone]
      have := length_pos_iff.mpr hnone
      simp
      omega

theorem wanted_sublist (l : List Char) : (wanted l).Sublist (registered l) := by
  by_cases heq : wanted l = registered l
  · rw [heq]
  · rw [wanted_eq_registered_iff] at heq
    rw [wanted, if_neg (by omega)]
    exact nil_sublist _

theorem flatMap_wanted_sublist (ls : List (List Char)) :
    (ls.flatMap wanted).Sublist (ls.flatMap registered) := by
  induction ls with
  | nil => exact .slnil
  | cons l ls ih =>
    rw [flatMap_cons, flatMap_cons]
    exact (wanted_sublist l).append ih

/-- No path is wanted that is not registered, so one too many shows in the length. -/
theorem flatMap_registered_iff (ls : List (List Char)) :
    ls.flatMap registered = ls.flatMap wanted ↔ ∀ l ∈ ls, l.length ≤ 127 ∨ 128 ∣ l.length := by
  constructor
  · intro h l hl
    obtain ⟨p, q, rfl⟩ := append_of_mem hl
    have hlen := congrArg length h
    have hp := (flatMap_wanted_sublist p).length_le
    have hq := (flatMap_wanted_sublist q).length_le
    have hone := (wanted_sublist l).length_le
    simp only [flatMap_append, flatMap_cons, length_append] at hlen
    exact (wanted_eq_registered_iff l).mp ((wanted_sublist l).eq_of_length (by omega))
  · exact fun h => (flatMap_congr fun l hl => (wanted_eq_registered_iff l).mpr (h l hl)).symm

variable {k : Kmalloc} {s s' : Fal} {contents : ℕ → List Char} {file : ℕ}

theorem autoreg_eq (hopen : vnodeOpen k s path 0 0 = .ok (some file, s'))
    (hclean : NUL ∉ contents file) (str : CharBuf 128) :
    deviceDriverAutoreg k s contents str path =
      .ok (0, (lines [] (contents file)).flatMap registered) := by
  have hpath : path.head? = some '/' := by
    unfold vnodeOpen vnodeLookup at hopen
    split at hopen
    · rfl
    · cases hopen
  obtain ⟨a, hloop, hcalls⟩ := (buffers_nil ⟨str, 0, 0, []⟩ rfl).foldlM hpath (contents file) hclean
  rw [deviceDriverAutoreg, hopen, ok_bind]
  dsimp only
  rw [hloop, ok_bind, hcalls, nil_append]
  rfl

/-- The call returns without a write outside the buffers. It registers the short lines and nothing
else exactly when the length of every other line is a multiple of the size of the buffer. -/
theorem autoreg_exact_iff (hopen : vnodeOpen k s path 0 0 = .ok (some file, s'))
    (hclean : NUL ∉ contents file) (str : CharBuf 128) :
    (∃ calls, deviceDriverAutoreg k s contents str path = .ok (0, calls)) ∧
    (deviceDriverAutoreg k s contents str path =
        .ok (0, (lines [] (contents file)).flatMap wanted) ↔
      ∀ l ∈ lines [] (contents file), l.length ≤ 127 ∨ 128 ∣ l.length) := by
  rw [autoreg_eq hopen hclean str, ← flatMap_registered_iff]
  exact ⟨⟨_, rfl⟩, by simp⟩

end Loop

section Samples

/-- An archive with the list `x` as its only member. -/
def listOnly : Fal := initrdInit [⟨['x'], .reg, 130⟩]

theorem listOnly_open : ∃ file s', vnodeOpen .bump listOnly ['/', 'x'] 0 0 = .ok (some file, s') :=
  ⟨_, _, rfl⟩

theorem autoreg_exact_two_lines : deviceDriverAutoreg .bump listOnly
    (fun _ => "a\n\nbc\nd".toList) ⟨fun _ => NUL⟩ ['/', 'x'] =
      .ok (0, [['/', 'a'], ['/', 'b', 'c']]) := by
  obtain ⟨file, s', hopen⟩ := listOnly_open
  exact ((autoreg_exact_iff hopen (by decide) _).2.mpr (by decide)).trans rfl

set_option maxRecDepth 2000 in
/-- The last byte of a line of 129 is registered as a driver. -/
theorem autoreg_registers_tail : deviceDriverAutoreg .bump listOnly
      (fun _ => List.replicate 129 'a' ++ ['\n']) ⟨fun _ => NUL⟩ ['/', 'x'] = .ok (0, [['/', 'a']]) ∧
    (lines [] (List.replicate 129 'a' ++ ['\n'])).flatMap wanted = [] := by
  obtain ⟨file, s', hopen⟩ := listOnly_open
  exact ⟨(autoreg_eq hopen (by decide) _).trans rfl, by decide⟩

end Samples
end GarnOS.Autoreg
