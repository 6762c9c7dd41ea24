import GarnOS.Term.Input

/-! The interrupt handler of the i8042 keyboard: from scancodes to the ring buffer. -/
namespace GarnOS.Input
open List

def i8042_STATUS_READRDY : BitVec 8 := 1
def LEFT_SHIFT : BitVec 8 := 0x2A
def LEFT_CTRL : BitVec 8 := 0x1D
def RIGHT_SHIFT : BitVec 8 := 0x36
def CAPSLOCK : BitVec 8 := 0x3A

def bytes (text : String) : List (BitVec 8) := text.toList.map fun c => BitVec.ofNat 8 c.toNat

def keymap : List (BitVec 8) := bytes
  "\x00\x1b1234567890-=\x08\x00qwertyuiop[]\n\x00asdfghjkl;\x27\x60\x00\\zxcvbnm,./\x00*\x00 "

def keymapUppercase : List (BitVec 8) := bytes
  "\x00\x1b!@#$%^&*()_+\x08\x00QWERTYUIOP\x7b\x7d\n\x00ASDFGHJKL:\"~\x00|ZXCVBNM<>?\x00*\x00 "

/-- The cases of the switch. -/
def specialCase (scancode : BitVec 8) : Option KbInput :=
  if scancode = LEFT_SHIFT then some ⟨INPUT_LEFT_SHIFT, true, true⟩
  else if scancode = LEFT_SHIFT + 0x80 then some ⟨INPUT_LEFT_SHIFT, false, true⟩
  else if scancode = RIGHT_SHIFT then some ⟨INPUT_RIGHT_SHIFT, true, true⟩
  else if scancode = RIGHT_SHIFT + 0x80 then some ⟨INPUT_RIGHT_SHIFT, false, true⟩
  else if scancode = LEFT_CTRL then some ⟨INPUT_LEFT_CTRL, true, true⟩
  else if scancode = LEFT_CTRL + 0x80 then some ⟨INPUT_LEFT_CTRL, false, true⟩
  else if scancode = CAPSLOCK then some ⟨INPUT_CAPSLOCK, true, true⟩
  else if scancode = CAPSLOCK + 0x80 then some ⟨INPUT_CAPSLOCK, false, true⟩
  else none

def charTable (k : KbState) : List (BitVec 8) :=
  if k.lShift || k.rShift || k.capsLock then keymapUppercase else keymap

/-- `none` is an access beyond the table. The second comparison is one of `int`s, which a code below
0x80 passes; `scancode` then wraps around. -/
def keyboardHandler (s : State) (status scancode : BitVec 8) : Option State :=
  if status &&& i8042_STATUS_READRDY = 0 then some s
  else match specialCase scancode with
    | some input => some (inputSendKey s input)
    | none =>
      if scancode.toNat ≤ 58 then do
        let key ← (charTable s.keyboardState)[scancode.toNat]?
        return inputSendKey s ⟨key, true, false⟩
      else if (scancode.toNat : ℤ) - 0x80 ≤ 58 then do
        let key ← (charTable s.keyboardState)[(scancode - 0x80).toNat]?
        return inputSendKey s ⟨key, false, false⟩
      else some s

/-- An interrupt for each of the codes. -/
def interrupts (s : State) : List (BitVec 8) → Option State
  | [] => some s
  | c :: cs => (keyboardHandler s i8042_STATUS_READRDY c).bind (interrupts · cs)

/-- The text that the codes type, from the modifiers `k` on. -/
def typed (k : KbState) : List (BitVec 8) → List (BitVec 8)
  | [] => []
  | c :: cs =>
    match specialCase c with
    | some input => typed (specialKey k input.key input.pressed) cs
    | none => (charTable k)[c.toNat]?.toList ++ typed k cs

/-- The handler reads beyond the table. -/
abbrev Beyond (c : BitVec 8) : Prop := 58 < c.toNat ∧ c.toNat < 128

variable {s : State} {q codes : List (BitVec 8)}

theorem specialCase_cases : ∀ c, (∀ input ∈ specialCase c, input.special = true ∧ ¬Beyond c) ∧
    (specialCase c = none → c.toNat ≠ 58 ∧ c.toNat ≠ 186) := by decide

theorem charTable_length (k : KbState) : (charTable k).length = 58 := by
  unfold charTable
  split <;> rfl

theorem keyboardHandler_step (s : State) (c : BitVec 8) :
    if Beyond c then keyboardHandler s i8042_STATUS_READRDY c = none
    else ∃ input, keyboardHandler s i8042_STATUS_READRDY c = some (inputSendKey s input) ∧
      ∀ cs, typed s.keyboardState (c :: cs) =
        pressed [.key input] ++ typed (inputSendKey s input).keyboardState cs := by
  have hlen := charTable_length s.keyboardState
  obtain ⟨hsome, hnone⟩ := specialCase_cases c
  have hready : ¬i8042_STATUS_READRDY &&& i8042_STATUS_READRDY = 0 := by decide
  simp only [keyboardHandler, typed, if_neg hready]
  cases hc : specialCase c with
  | some input =>
    obtain ⟨hs, hin⟩ := hsome input hc
    rw [if_neg hin]
    exact ⟨input, rfl, fun cs => by simp [inputSendKey, pressed, hs]⟩
  | none =>
    have hne := hnone hc
    have hsub : (c - 0x80).toNat = (c.toNat + 128) % 256 := by
      rw [BitVec.toNat_sub, Nat.add_comm]
      rfl
    dsimp only
    by_cases hlt : c.toNat < 58
    · obtain ⟨key, hkey⟩ : ∃ key, (charTable s.keyboardState)[c.toNat]? = some key :=
        ⟨_, getElem?_eq_getElem (by omega)⟩
      rw [if_neg (by omega), if_pos hlt.le, hkey]
      exact ⟨⟨key, true, false⟩, rfl, fun cs => rfl⟩
    have hempty : (charTable s.keyboardState)[c.toNat]? = none := getElem?_eq_none (by omega)
    rw [if_neg (show ¬c.toNat ≤ 58 by omega), hempty]
    by_cases hlow : c.toNat < 128
    · rw [if_pos ⟨by omega, hlow⟩, if_pos (by omega), getElem?_eq_none (by omega)]
      rfl
    · rw [if_neg (by omega)]
      refine ⟨⟨0, false, false⟩, ?_, fun cs => rfl⟩
      split
      · rw [getElem?_eq_getElem (by omega)]
        rfl
      · rfl

/-- By induction over the codes: each adds to the unread keys what it types. -/
theorem Unread.types (h : Unread s q) (hroom : (q ++ typed s.keyboardState codes).length < INPUT_RB_SIZE) :
    (interrupts s codes = none ↔ ∃ c ∈ codes, Beyond c) ∧
      ∀ t ∈ interrupts s codes, Unread t (q ++ typed s.keyboardState codes) := by
  induction codes generalizing s q with
  | nil =>
    rw [typed, append_nil]
    exact ⟨by simp [interrupts], fun t ht => Option.some.inj ht ▸ h⟩
  | cons c codes ih =>
    have hstep := keyboardHandler_step s c
    rw [interrupts]
    split at hstep
    next hin =>
      rw [hstep]
      exact ⟨⟨fun _ => ⟨c, mem_cons_self, hin⟩, fun _ => rfl⟩, nofun⟩
    next hin =>
      obtain ⟨input, hinput, htyped⟩ := hstep
      rw [htyped, ← append_assoc] at hroom ⊢
      rw [hinput, Option.bind_some]
      have hrest := ih (h.send input (by rw [length_append] at hroom; omega)) hroom
      exact ⟨hrest.1.trans (by simp [hin]), hrest.2⟩

/-- Interrupts read beyond the table exactly if one has a code from 59 to 127, such as those of the
function keys and the arrow keys. Otherwise a read returns the typed text. -/
theorem keyboard_types (s : State) (codes : List (BitVec 8))
    (hroom : (typed s.keyboardState codes).length < INPUT_RB_SIZE) :
    (interrupts (inputInit s) codes = none ↔ ∃ c ∈ codes, Beyond c) ∧
      ∀ t ∈ interrupts (inputInit s) codes, ∀ size,
        (inputRbRead size t).1 = (typed s.keyboardState codes).take size := by
  obtain ⟨hnone, hunread⟩ := @Unread.types _ [] codes (unread_inputInit s) hroom
  exact ⟨hnone, fun t ht size => ((hunread t ht).inputRbRead size).1⟩

/-- Shift and `a`, both released, and `1`. -/
theorem keyboard_types_a : ∃ t ∈ interrupts (inputInit init) [0x2A, 0x1E, 0x9E, 0xAA, 0x02],
    (inputRbRead 5 t).1 = [0x41, 0x31] :=
  have htypes := keyboard_types init [0x2A, 0x1E, 0x9E, 0xAA, 0x02] (by decide)
  ⟨_, rfl, htypes.2 _ rfl 5⟩

end GarnOS.Input
