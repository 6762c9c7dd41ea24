import Mathlib.Tactic

/-! The keyboard: the modifier state, and the ring buffer between `input_send_key` and
`input_rb_read`. -/
namespace GarnOS.Input
open Function List

def INPUT_LEFT_SHIFT : BitVec 8 := 0
def INPUT_RIGHT_SHIFT : BitVec 8 := 1
def INPUT_LEFT_ALT : BitVec 8 := 2
def INPUT_RIGHT_ALT : BitVec 8 := 3
def INPUT_LEFT_CTRL : BitVec 8 := 4
def INPUT_RIGHT_CTRL : BitVec 8 := 5
def INPUT_CAPSLOCK : BitVec 8 := 6

def INPUT_RB_SIZE : ℕ := 32

structure KbState where
  lShift : Bool
  rShift : Bool
  lCtrl : Bool
  rCtrl : Bool
  lAlt : Bool
  rAlt : Bool
  capsLock : Bool
  deriving DecidableEq

structure KbInput where
  key : BitVec 8
  pressed : Bool
  special : Bool
  deriving DecidableEq

/-- `input_kb_rb_entry_t`, with the index of the entry that `next` points to. -/
structure RbEntry where
  chr : BitVec 8
  next : ℕ

/-- The globals of `input.c`. -/
structure State where
  keyboardState : KbState
  kbringbuffer : ℕ → RbEntry
  writeRBPos : ℕ
  readRBPos : ℕ
  keyBuffer : BitVec 8

def inputInit (s : State) : State :=
  let rb := Nat.fold (INPUT_RB_SIZE - 1) (fun i _ rb => update rb i { rb i with next := i + 1 })
    s.kbringbuffer
  let rb := update rb (INPUT_RB_SIZE - 1) { rb (INPUT_RB_SIZE - 1) with next := 0 }
  { s with kbringbuffer := rb, writeRBPos := 0, readRBPos := 0 }

/-- The switch over the special keys. -/
def specialKey (k : KbState) (key : BitVec 8) (pressed : Bool) : KbState :=
  if key = INPUT_LEFT_ALT then { k with lAlt := pressed }
  else if key = INPUT_RIGHT_ALT then { k with rAlt := pressed }
  else if key = INPUT_LEFT_CTRL then { k with lCtrl := pressed }
  else if key = INPUT_RIGHT_CTRL then { k with rCtrl := pressed }
  else if key = INPUT_LEFT_SHIFT then { k with lShift := pressed }
  else if key = INPUT_RIGHT_SHIFT then { k with rShift := pressed }
  else if key = INPUT_CAPSLOCK then { k with capsLock := !(k.capsLock && pressed) }
  else k

def inputSendKey (s : State) (input : KbInput) : State :=
  if input.special then
    { s with keyboardState := specialKey s.keyboardState input.key input.pressed }
  else if input.pressed then
    let entry := s.kbringbuffer s.writeRBPos
    { s with
      keyBuffer := input.key
      kbringbuffer := update s.kbringbuffer s.writeRBPos { entry with chr := input.key }
      writeRBPos := entry.next }
  else s

/-- The bytes that `input_rb_read` stores, as many as it returns. -/
def inputRbRead : ℕ → State → List (BitVec 8) × State
  | 0, s => ([], s)
  | size + 1, s =>
    if s.writeRBPos = s.readRBPos then ([], s)
    else
      let entry := s.kbringbuffer s.readRBPos
      let r := inputRbRead size { s with
        kbringbuffer := update s.kbringbuffer s.readRBPos { entry with chr := 0 }
        readRBPos := entry.next }
      (entry.chr :: r.1, r.2)

inductive Event where
  | key (input : KbInput)
  | read (size : ℕ)

/-- A call, after the bytes that were read before it. -/
def step (r : List (BitVec 8) × State) : Event → List (BitVec 8) × State
  | .key input => (r.1, inputSendKey r.2 input)
  | .read size => (r.1 ++ (inputRbRead size r.2).1, (inputRbRead size r.2).2)

/-- All bytes that the calls have read, and the state after them. -/
def run (s : State) (es : List Event) : List (BitVec 8) × State := es.foldl step ([], s)

/-- The keys whose presses reach the buffer, in order. -/
def pressed : List Event → List (BitVec 8)
  | [] => []
  | .key input :: es => if !input.special && input.pressed then input.key :: pressed es else pressed es
  | .read _ :: es => pressed es

/-- The keys `q` lie in the buffer, one behind the other from the read position on. -/
structure Unread (s : State) (q : List (BitVec 8)) : Prop where
  next : ∀ i < INPUT_RB_SIZE, (s.kbringbuffer i).next = (i + 1) % INPUT_RB_SIZE
  room : q.length < INPUT_RB_SIZE
  read : s.readRBPos < INPUT_RB_SIZE
  write : s.writeRBPos = (s.readRBPos + q.length) % INPUT_RB_SIZE
  cells : ∀ i (hi : i < q.length), (s.kbringbuffer ((s.readRBPos + i) % INPUT_RB_SIZE)).chr = q[i]

section Ring
variable {s : State} {q : List (BitVec 8)} {es : List Event}

theorem unread_inputInit (s : State) : Unread (inputInit s) [] := by
  refine ⟨fun i (hi : i < 32) => ?_, by decide, Nat.succ_pos 31, by simp [inputInit],
    by simp⟩
  interval_cases i <;> rfl

/-- The entry behind the last unread key is none of theirs, as long as one entry stays free. -/
theorem Unread.press (h : Unread s q) (hroom : q.length + 1 < INPUT_RB_SIZE) (input : KbInput)
    (hkey : (!input.special && input.pressed) = true) :
    Unread (inputSendKey s input) (q ++ [input.key]) := by
  rw [Bool.and_eq_true, Bool.not_eq_true'] at hkey
  have hwrite := h.write
  have hlt : s.writeRBPos < INPUT_RB_SIZE := hwrite ▸ Nat.mod_lt _ (by decide)
  rw [inputSendKey, hkey.1, hkey.2]
  simp only [Bool.false_eq_true, if_false, if_true]
  refine ⟨fun i hi => ?_, by simpa using hroom, h.read, ?_, fun i hi => ?_⟩
  · by_cases hw : i = s.writeRBPos
    · simp [← hw, h.next i hi]
    · simp [hw, h.next i hi]
  · rw [h.next _ hlt, hwrite, Nat.mod_add_mod, length_append, length_singleton, Nat.add_assoc]
  · rw [length_append, length_singleton] at hi
    by_cases hlast : i = q.length
    · simp [hlast, ← h.write]
    · have hne : (s.readRBPos + i) % INPUT_RB_SIZE ≠ s.writeRBPos := by
        unfold INPUT_RB_SIZE at *
        omega
      simp [hne, h.cells i (by omega), getElem_append_left (show i < q.length by omega)]

theorem Unread.other (h : Unread s q) (input : KbInput)
    (hkey : (!input.special && input.pressed) = false) : Unread (inputSendKey s input) q := by
  unfold inputSendKey
  split
  · exact ⟨h.next, h.room, h.read, h.write, h.cells⟩
  · rw [if_neg (by simp_all)]
    exact h

theorem Unread.send (h : Unread s q) (input : KbInput)
    (hroom : (q ++ pressed [.key input]).length < INPUT_RB_SIZE) :
    Unread (inputSendKey s input) (q ++ pressed [.key input]) := by
  rw [pressed] at *
  cases hkey : !input.special && input.pressed with
  | false => simpa [hkey, pressed] using h.other input hkey
  | true => simpa [hkey, pressed] using h.press (by simpa [hkey, pressed] using hroom) input hkey

theorem Unread.readOne {x : BitVec 8} (h : Unread s (x :: q)) :
    s.writeRBPos ≠ s.readRBPos ∧ (s.kbringbuffer s.readRBPos).chr = x ∧ Unread { s with
      kbringbuffer := update s.kbringbuffer s.readRBPos { s.kbringbuffer s.readRBPos with chr := 0 }
      readRBPos := (s.kbringbuffer s.readRBPos).next } q := by
  obtain ⟨hnext, hroom, hread, hwrite, hcells⟩ := h
  rw [length_cons] at hroom hwrite
  unfold INPUT_RB_SIZE at *
  refine ⟨by omega, ?_, fun i hi => ?_, Nat.lt_of_succ_lt hroom, ?_, ?_, fun i hi => ?_⟩
  · have hfirst := hcells 0 (by simp)
    rwa [Nat.add_zero, Nat.mod_eq_of_lt hread, getElem_cons_zero] at hfirst
  · by_cases hr : i = s.readRBPos
    · simp [← hr, hnext i hi, INPUT_RB_SIZE]
    · simp [hr, hnext i hi, INPUT_RB_SIZE]
  · simp only [hnext _ hread, INPUT_RB_SIZE]
    omega
  · simp only [hnext _ hread, INPUT_RB_SIZE]
    omega
  · have hmod : ((s.readRBPos + 1) % 32 + i) % 32 = (s.readRBPos + (i + 1)) % 32 := by omega
    have hne : (s.readRBPos + (i + 1)) % 32 ≠ s.readRBPos := by omega
    have hcell := hcells (i + 1) (by simpa using hi)
    rw [getElem_cons_succ] at hcell
    simpa [hnext _ hread, INPUT_RB_SIZE, hmod, hne] using hcell

/-- By induction on the size: each pass takes the first unread key. -/
theorem Unread.inputRbRead (h : Unread s q) (size : ℕ) :
    (inputRbRead size s).1 = q.take size ∧ Unread (inputRbRead size s).2 (q.drop size) := by
  induction size generalizing s q with
  | zero => exact ⟨by simp [Input.inputRbRead], by simpa [Input.inputRbRead] using h⟩
  | succ size ih =>
    cases q with
    | nil =>
      have hempty : s.writeRBPos = s.readRBPos := by
        rw [h.write, length_nil, Nat.add_zero, Nat.mod_eq_of_lt h.read]
      simpa [Input.inputRbRead, hempty] using h
    | cons x q =>
      obtain ⟨hne, hx, hrest⟩ := h.readOne
      obtain ⟨hbytes, hstate⟩ := ih hrest
      simp only [Input.inputRbRead, if_neg hne, hx, hbytes]
      exact ⟨by simp, by simpa using hstate⟩

theorem run_concat (s : State) (es : List Event) (e : Event) :
    run s (es ++ [e]) = step (run s es) e := by simp [run]

theorem pressed_concat (es : List Event) (e : Event) :
    pressed (es ++ [e]) = pressed es ++ pressed [e] := by
  fun_induction pressed es <;> simp_all [pressed]

/-- The keys pressed but not yet read never fill the buffer. -/
def Bounded (s : State) (es : List Event) : Prop :=
  ∀ p, p <+: es → (pressed p).length < (run s p).1.length + INPUT_RB_SIZE

theorem unread_run (s : State) (es : List Event) (hbound : Bounded (inputInit s) es) :
    ∃ q, pressed es = (run (inputInit s) es).1 ++ q ∧ Unread (run (inputInit s) es).2 q := by
  induction es using reverseRecOn with
  | nil => exact ⟨[], rfl, unread_inputInit s⟩
  | append_singleton es e ih =>
    obtain ⟨q, hq, hunread⟩ := ih fun p hp => hbound p (hp.trans (prefix_append es [e]))
    rw [run_concat, pressed_concat]
    cases e with
    | read size =>
      obtain ⟨hbytes, hstate⟩ := hunread.inputRbRead size
      exact ⟨q.drop size, by simp [step, hbytes, hq, pressed], hstate⟩
    | key input =>
      have hall := hbound _ (prefix_refl _)
      simp only [pressed_concat, run_concat, hq, step, length_append] at hall
      exact ⟨q ++ pressed [.key input], by simp [step, hq],
        hunread.send input (by rw [length_append]; omega)⟩

/-- While one entry of the buffer stays free, the bytes read so far are the first keys pressed, and a
read of any size returns that many of the rest. -/
theorem keyboard_fifo (s : State) (es : List Event) (hbound : Bounded (inputInit s) es) :
    (run (inputInit s) es).1 <+: pressed es ∧ ∀ size,
      (inputRbRead size (run (inputInit s) es).2).1
        = ((pressed es).drop (run (inputInit s) es).1.length).take size ∧
      (inputRbRead size (run (inputInit s) es).2).1.length
        = min size ((pressed es).length - (run (inputInit s) es).1.length) := by
  obtain ⟨q, hq, hunread⟩ := unread_run s es hbound
  refine ⟨⟨q, hq.symm⟩, fun size => ?_⟩
  rw [(hunread.inputRbRead size).1, hq]
  simp

def init : State := ⟨⟨false, false, false, false, false, false, false⟩, fun _ => ⟨0, 0⟩, 0, 0, 0⟩

/-- Two keys, of which one is read. -/
theorem keyboard_fifo_two : (inputRbRead 5 (run (inputInit init)
    [.key ⟨97, true, false⟩, .key ⟨98, true, false⟩, .read 1]).2).1 = [98] := by
  have hbound : Bounded (inputInit init)
      [.key ⟨97, true, false⟩, .key ⟨98, true, false⟩, .read 1] := by
    have hlen : ∀ p, (pressed p).length ≤ p.length := fun p => by
      fun_induction pressed p <;> simp_all <;> omega
    intro p hp
    have := hlen p
    have := hp.length_le
    simp only [length_cons, length_nil] at this
    unfold INPUT_RB_SIZE
    omega
  exact ((keyboard_fifo init _ hbound).2 5).1.trans (by decide)

end Ring

section Modifiers

/-- The keys that act while they are held. -/
inductive Modifier where
  | lShift | rShift | lCtrl | rCtrl | lAlt | rAlt
  deriving DecidableEq

def Modifier.key : Modifier → BitVec 8
  | .lShift => INPUT_LEFT_SHIFT
  | .rShift => INPUT_RIGHT_SHIFT
  | .lCtrl => INPUT_LEFT_CTRL
  | .rCtrl => INPUT_RIGHT_CTRL
  | .lAlt => INPUT_LEFT_ALT
  | .rAlt => INPUT_RIGHT_ALT

def KbState.flag (k : KbState) : Modifier → Bool
  | .lShift => k.lShift
  | .rShift => k.rShift
  | .lCtrl => k.lCtrl
  | .rCtrl => k.rCtrl
  | .lAlt => k.lAlt
  | .rAlt => k.rAlt

/-- The keyboard state after a sequence of events, from the initial one. -/
def kbAfter (es : List KbInput) : KbState := (es.foldl inputSendKey init).keyboardState

/-- The events of one special key. -/
def eventsOf (key : BitVec 8) (es : List KbInput) : List KbInput :=
  es.filter fun e => e.special && e.key == key

def capsPresses (es : List KbInput) : ℕ := (eventsOf INPUT_CAPSLOCK es).countP (·.pressed)

def capsRelease (e : KbInput) : Prop := e.special ∧ e.key = INPUT_CAPSLOCK ∧ e.pressed = false

theorem kbAfter_concat (es : List KbInput) (e : KbInput) : kbAfter (es ++ [e])
    = if e.special then specialKey (kbAfter es) e.key e.pressed else kbAfter es := by
  simp only [kbAfter, foldl_append, foldl_cons, foldl_nil]
  unfold inputSendKey
  split_ifs <;> rfl

theorem specialKey_flag (k : KbState) (key : BitVec 8) (pressed : Bool) (m : Modifier) :
    (specialKey k key pressed).flag m = if key = m.key then pressed else k.flag m := by
  unfold specialKey
  cases m <;> split_ifs <;> simp_all [KbState.flag, Modifier.key, INPUT_LEFT_SHIFT,
    INPUT_RIGHT_SHIFT, INPUT_LEFT_CTRL, INPUT_RIGHT_CTRL, INPUT_LEFT_ALT, INPUT_RIGHT_ALT]

theorem specialKey_capsLock (k : KbState) (key : BitVec 8) (pressed : Bool) :
    (specialKey k key pressed).capsLock
      = if key = INPUT_CAPSLOCK then !(k.capsLock && pressed) else k.capsLock := by
  unfold specialKey
  split_ifs <;> simp_all [INPUT_CAPSLOCK, INPUT_LEFT_SHIFT, INPUT_RIGHT_SHIFT, INPUT_LEFT_CTRL,
    INPUT_RIGHT_CTRL, INPUT_LEFT_ALT, INPUT_RIGHT_ALT]

/-- Every modifier follows the last event of its key. -/
theorem flag_kbAfter (es : List KbInput) (m : Modifier) : (kbAfter es).flag m = true ↔
    (eventsOf m.key es).getLast?.map (·.pressed) = some true := by
  induction es using reverseRecOn with
  | nil => cases m <;> simp [kbAfter, init, KbState.flag, eventsOf]
  | append_singleton es e ih =>
    rw [kbAfter_concat, eventsOf, filter_append, ← eventsOf]
    by_cases hs : e.special <;> by_cases hk : e.key = m.key <;>
      simp [hs, hk, specialKey_flag, ih]

/-- The state is what the history says: modifiers are levels, Caps Lock is a toggle. -/
def Faithful (es : List KbInput) : Prop :=
  (∀ m : Modifier, (kbAfter es).flag m = true ↔
    (eventsOf m.key es).getLast?.map (·.pressed) = some true) ∧
  ((kbAfter es).capsLock = true ↔ capsPresses es % 2 = 1)

/-- A press toggles and a release sets: the toggle survives the releases that find it set. -/
theorem capsLock_kbAfter (es : List KbInput)
    (hset : ∀ p e, p ++ [e] <+: es → capsRelease e → capsPresses p % 2 = 1) :
    (kbAfter es).capsLock = true ↔ capsPresses es % 2 = 1 := by
  induction es using reverseRecOn with
  | nil => decide
  | append_singleton es e ih =>
    have hes := ih fun p e' hp => hset p e' (hp.trans (prefix_append es [e]))
    have he := hset es e (prefix_refl _)
    rw [kbAfter_concat, capsPresses, eventsOf, filter_append, ← eventsOf, countP_append,
      ← capsPresses]
    by_cases hcaps : e.special = true ∧ e.key = INPUT_CAPSLOCK
    · obtain ⟨hs, hk⟩ := hcaps
      cases hp : e.pressed with
      | false =>
        have hodd := he ⟨hs, hk, hp⟩
        simp [hs, hk, hp, specialKey_capsLock, hodd]
      | true =>
        cases hon : (kbAfter es).capsLock <;>
          simp [hs, hk, hp, specialKey_capsLock, hon] at hes ⊢ <;> omega
    · by_cases hs : e.special <;> by_cases hk : e.key = INPUT_CAPSLOCK <;>
        simp_all [specialKey_capsLock]

/-- The history determines the state at every point, and releases of Caps Lock change nothing,
exactly when each of them comes after an odd number of presses. -/
theorem modifiers_faithful_iff (es : List KbInput) :
    ((∀ p, p <+: es → Faithful p) ∧ ∀ p e, p ++ [e] <+: es → capsRelease e →
      (kbAfter (p ++ [e])).capsLock = (kbAfter p).capsLock) ↔
    ∀ p e, p ++ [e] <+: es → capsRelease e → capsPresses p % 2 = 1 := by
  have hrelease : ∀ p e, capsRelease e → (kbAfter (p ++ [e])).capsLock = true := by
    rintro p e ⟨hs, hk, hp⟩
    simp [kbAfter_concat, hs, hk, hp, specialKey_capsLock]
  constructor
  · intro h p e hp he
    rw [← (h.1 p ((prefix_append p [e]).trans hp)).2, ← h.2 p e hp he, hrelease p e he]
  · intro h
    have hcaps : ∀ p, p <+: es → ((kbAfter p).capsLock = true ↔ capsPresses p % 2 = 1) :=
      fun p hp => capsLock_kbAfter p fun p' e hp' => h p' e (hp'.trans hp)
    refine ⟨fun p hp => ⟨flag_kbAfter p, hcaps p hp⟩, fun p e hp he => ?_⟩
    rw [hrelease p e he, (hcaps p ((prefix_append p [e]).trans hp)).mpr (h p e hp he)]

/-- Caps Lock pressed and released twice is on. -/
theorem capsLock_stays_on : ¬ Faithful [⟨INPUT_CAPSLOCK, true, true⟩,
    ⟨INPUT_CAPSLOCK, false, true⟩, ⟨INPUT_CAPSLOCK, true, true⟩, ⟨INPUT_CAPSLOCK, false, true⟩] :=
  fun h => absurd h.2 (by decide)

end Modifiers
end GarnOS.Input
