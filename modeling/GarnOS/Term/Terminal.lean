import GarnOS.Display.Framebuffer

/-! The terminal: the cursor, the escape sequences and `term_putchar`. -/
namespace GarnOS.Terminal
open ByteMemory Outcome

/-- `term_context_t`, and the memory that drawing changes. -/
structure Term extends TermContext where
  escape : Bool
  escapeCSI : Bool
  enabled : Bool
  escapeOffset : BitVec 16
  escArgs : ℕ → BitVec 8
  escArgsCount : BitVec 8
  mem : Mem

/-- The palette: a cube with six levels of each colour, and 24 shades of grey. -/
def col256 : List (BitVec 32) :=
  let levels : List (BitVec 32) := [0x00, 0x5f, 0x87, 0xaf, 0xd7, 0xff]
  (levels.flatMap fun r => levels.flatMap fun g => levels.map (0x10000 * r + 0x100 * g + ·)) ++
    (List.range 24).map fun i => 0x080808 + 0x0a0a0a * BitVec.ofNat 32 i

section Model
variable (f : FramebufferInfo) (font : ℕ → BitVec 8)

def Term.char (t : Term) (chr : BitVec 8) : Term :=
  { t with mem := termChar f font t.toTermContext t.mem chr }

def Term.clear (t : Term) : Term :=
  { t with
    toTermContext := (termClear f t.toTermContext t.mem).2
    mem := (termClear f t.toTermContext t.mem).1 }

def cursorAdvance (t : Term) : Term :=
  if t.posX + GLYPH_X ≥ f.width then
    if t.posY + GLYPH_Y > f.height - GLYPH_Y then
      { t with mem := termScroll f t.toTermContext t.mem GLYPH_Y, posX := 0 }
    else { t with posY := t.posY + GLYPH_Y, posX := 0 }
  else { t with posX := t.posX + GLYPH_X }

def cursorNewline (t : Term) : Term :=
  if t.posY + GLYPH_Y > f.height - GLYPH_Y then
    { t with mem := termScroll f t.toTermContext t.mem GLYPH_Y, posX := 0 }
  else { t with posY := t.posY + GLYPH_Y }

def cursorReturn (t : Term) : Term := { t with posX := 0 }

def cursorBackspace (t : Term) : Term :=
  if t.posX.toInt - GLYPH_X ≥ 0 then Term.char f font { t with posX := t.posX - GLYPH_X } 0x20
  else
    let t := Term.char f font { t with posX := f.width - GLYPH_X, posY := t.posY - GLYPH_Y } 0x20
    { t with posX := f.width - GLYPH_X, posY := t.posY - GLYPH_Y }

/-- `term_init`, on the context that starts as zeros. -/
def termInit (m : Mem) : Term :=
  { Term.clear f ⟨⟨0xffffffff, 0, 0, 0⟩, false, false, false, 0, fun _ => 0, 0, m⟩ with
    enabled := true }

/-- The colour that `38` or `48` sets in place of `colour`. -/
def sgrColour (escArgs : ℕ → BitVec 8) (colour : BitVec 32) : Except Fault (BitVec 32) :=
  if escArgs 1 = 5#8 then
    match col256[(escArgs 2).toNat]? with
    | some c => .ok c
    | none => .error (.overrun (escArgs 2).toNat)
  else if escArgs 1 = 2#8 then
    .ok ((escArgs 2).setWidth 32 <<< 16 + (escArgs 3).setWidth 32 <<< 8 + (escArgs 4).setWidth 32)
  else .ok colour

def termSgr (t : Term) : Except Fault Term :=
  if t.escArgs 0 = 38#8 then do
    let colour ← sgrColour t.escArgs t.foregroundColour
    return Term.char f font { t with foregroundColour := colour } 219
  else if t.escArgs 0 = 48#8 then do
    let colour ← sgrColour t.escArgs t.backgroundColour
    return Term.char f font { t with backgroundColour := colour } 219
  else .ok (t.char f font 219)

def termPutcharRaw (t : Term) (chr : BitVec 8) : Term :=
  if !t.enabled then t
  else if chr = 0x0a#8 then
    (cursorReturn (cursorNewline f (t.char f font 0))).char f font 219
  else if chr = 0x0d#8 then (cursorReturn t).char f font 219
  else (cursorAdvance f (t.char f font chr)).char f font 219

/-- A digit of an argument: the sixteenth and later arguments have no place. -/
def escDigit (t : Term) (chr : BitVec 8) : Except Fault Term :=
  let i := t.escArgsCount.toNat
  if i = 16 then .ok t
  else if i < 16 then
    .ok { t with escArgs := Function.update t.escArgs i (t.escArgs i * 10 + (chr - 0x30)) }
  else .error (.overrun i)

/-- The final byte `@`, `m` or `J`; others do nothing. -/
def escFinal (t : Term) (chr : BitVec 8) : Except Fault Term :=
  if chr = 0x40#8 then .ok ((termPutcharRaw f font · 0x20)^[(t.escArgs 0).toNat] t)
  else if chr = 0x6d#8 then termSgr f font t
  else if chr = 0x4a#8 ∧ t.escArgsCount = 0 ∧ t.escArgs 0 = 2#8 then .ok (t.clear f)
  else .ok t

def Term.endEscape (t : Term) : Term :=
  { t with
    escape := false, escapeCSI := false, escapeOffset := 0, escArgs := fun _ => 0
    escArgsCount := 0 }

def IsDigit (chr : BitVec 8) : Prop := 0x30#8 ≤ chr ∧ chr ≤ 0x39#8

instance (chr : BitVec 8) : Decidable (IsDigit chr) := instDecidableAnd

def termHandleEsc (t : Term) (chr : BitVec 8) : Except Fault Term :=
  if t.escapeOffset = 1#16 then .ok (if chr = 0x5b#8 then { t with escapeCSI := true } else t)
  else if IsDigit chr then escDigit t chr
  else if chr = 0x3b#8 then .ok { t with escArgsCount := t.escArgsCount + 1 }
  else do
    let t ← escFinal f font t chr
    return t.endEscape

/-- The characters that neither start an escape sequence nor go back are those of
`term_putchar_raw`. -/
def termPutchar (t : Term) (chr : BitVec 8) : Except Fault Term :=
  if chr = 0#8 ∨ t.enabled = false then .ok t
  else if t.escape then termHandleEsc f font { t with escapeOffset := t.escapeOffset + 1#16 } chr
  else if chr = 0x1b#8 then .ok { t with escape := true }
  else if chr = 0x08#8 then .ok ((cursorBackspace f font (t.char f font 0)).char f font 219)
  else .ok (termPutcharRaw f font t chr)

end Model

/-- Inside a sequence, a digit belongs to an argument that has a place or to the one behind them,
which is ignored, and a colour by number is in the palette. -/
def EscInBounds (t : Term) (chr : BitVec 8) : Prop :=
  (IsDigit chr → t.escArgsCount.toNat ≤ 16) ∧
  (chr = 0x6d#8 → t.escArgs 0 = 38#8 ∨ t.escArgs 0 = 48#8 → t.escArgs 1 = 5#8 →
    (t.escArgs 2).toNat < 240)

def InBounds (t : Term) (chr : BitVec 8) : Prop :=
  t.enabled = true → t.escape = true → t.escapeOffset + 1#16 ≠ 1#16 → EscInBounds t chr

/-- `chr` ends the escape sequence. -/
def Final (t : Term) (chr : BitVec 8) : Prop :=
  chr ≠ 0#8 ∧ t.enabled = true ∧ t.escape = true ∧ t.escapeOffset + 1#16 ≠ 1#16 ∧ ¬IsDigit chr ∧ chr ≠ 0x3b#8

/-- The escape parser is as `term_init` leaves it. -/
def Idle (t : Term) : Prop :=
  t.escape = false ∧ t.escapeCSI = false ∧ t.escapeOffset = 0 ∧ t.escArgsCount = 0 ∧
    ∀ i < 16, t.escArgs i = 0

/-- The cursor has a whole glyph row on the screen. -/
def OnScreen (f : FramebufferInfo) (t : Term) : Prop :=
  t.posX.toNat < f.width.toNat ∧ t.posY.toNat + GLYPH_Y ≤ f.height.toNat

section Runs
variable (f : FramebufferInfo) (font : ℕ → BitVec 8)

/-- Every byte of the stream meets `C` in the state it comes to. -/
def Meets (C : Term → BitVec 8 → Prop) : Term → List (BitVec 8) → Prop
  | _, [] => True
  | t, chr :: rest => C t chr ∧ ∀ t', termPutchar f font t chr = .ok t' → Meets C t' rest

/-- Every byte of the stream is taken without a fault, and `P` holds of each step. -/
def Taken (P : Term → BitVec 8 → Term → Prop) : Term → List (BitVec 8) → Prop
  | _, [] => True
  | t, chr :: rest => ∃ t', termPutchar f font t chr = .ok t' ∧ P t chr t' ∧ Taken P t' rest

end Runs

variable {f : FramebufferInfo} {font : ℕ → BitVec 8} {t : Term} {chr : BitVec 8}

theorem sgrColour_post {escArgs : ℕ → BitVec 8} {colour : BitVec 32} :
    Post (sgrColour escArgs colour) (fun _ => True) (fun _ => False) ↔
      (escArgs 1 = 5#8 → (escArgs 2).toNat < 240) := by
  have hlength : col256.length = 240 := rfl
  unfold sgrColour
  split_ifs with h5 h2
  · by_cases hi : (escArgs 2).toNat < 240
    · rw [List.getElem?_eq_getElem (hlength ▸ hi)]
      simp [hi]
    · rw [List.getElem?_eq_none (by omega)]
      simp [h5, hi]
  all_goals simp [h5]

theorem escFinal_post : Post (escFinal f font t chr) (fun _ => True) (fun _ => False) ↔
    (chr = 0x6d#8 → t.escArgs 0 = 38#8 ∨ t.escArgs 0 = 48#8 → t.escArgs 1 = 5#8 →
      (t.escArgs 2).toNat < 240) := by
  unfold escFinal termSgr
  split_ifs with hat hm h38 h48 hj
  · simp [hat]
  · simp only [hm, h38, forall_const, true_or]
    rw [← @sgrColour_post _ t.foregroundColour]
    cases sgrColour t.escArgs t.foregroundColour <;> simp
  · simp only [hm, h48, forall_const, or_true]
    rw [← @sgrColour_post _ t.backgroundColour]
    cases sgrColour t.escArgs t.backgroundColour <;> simp
  · simp [h38, h48]
  all_goals simp [hm]

theorem termHandleEsc_post : Post (termHandleEsc f font t chr)
    (fun t' => t.escapeOffset ≠ 1#16 → ¬IsDigit chr → chr ≠ 0x3b#8 → Idle t') (fun _ => False) ↔
    (t.escapeOffset ≠ 1#16 → EscInBounds t chr) := by
  unfold termHandleEsc EscInBounds
  split_ifs with hfirst hopen hdigit hsemi
  · simp [hfirst]
  · simp [hfirst]
  · have hm : chr ≠ 0x6d#8 := by
      rintro rfl
      exact absurd hdigit (by decide)
    unfold escDigit
    dsimp only
    split_ifs with h16 hlt
    · simp [hm, hdigit, h16]
    · simp [hm, hdigit, hlt.le]
    · simp [hm, hdigit, hfirst]
      omega
  · simp [hsemi, IsDigit]
  · have hidle : ∀ u : Term, Idle u.endEscape := fun u => ⟨rfl, rfl, rfl, rfl, fun _ _ => rfl⟩
    rw [← @escFinal_post f font]
    cases escFinal f font t chr <;> simp [hdigit, hfirst, hidle]

/-- A byte is taken exactly when its accesses are in bounds, and the last byte of a sequence leaves
the parser as it was at the start. -/
theorem termPutchar_post : Post (termPutchar f font t chr) (fun t' => Final t chr → Idle t')
    (fun _ => False) ↔ InBounds t chr := by
  unfold termPutchar InBounds Final
  split_ifs with hnone hescape hstart hback
  · obtain rfl | hdisabled := hnone
    · simp [EscInBounds, IsDigit]
    · simp [hdisabled]
  · obtain ⟨hchr, henabled⟩ := not_or.mp hnone
    have hpost := @termHandleEsc_post f font { t with escapeOffset := t.escapeOffset + 1#16 } chr
    simpa [hchr, henabled, hescape, EscInBounds] using hpost
  · simp [hescape]
  all_goals simp [hescape]

/-- A stream is taken whole exactly when every byte meets the bounds where it comes. -/
theorem escape_parser_safe_iff (f : FramebufferInfo) (font : ℕ → BitVec 8) (m : Mem)
    (bytes : List (BitVec 8)) :
    Taken f font (fun t chr t' => Final t chr → Idle t') (termInit f m) bytes ↔
      Meets f font InBounds (termInit f m) bytes := by
  generalize termInit f m = t
  induction bytes generalizing t with
  | nil => exact Iff.rfl
  | cons chr rest ih =>
    rw [Taken, Meets, ← @termPutchar_post f font]
    cases termPutchar f font t chr with
    | error e => simp
    | ok t' => simp [ih]

def screen : FramebufferInfo := ⟨0, 0x200000, 2560, 640, 480, 32, 1228800⟩

/-- Seventeen semicolons and a digit write behind `escArgs`, and colour 240 reads behind `col256`. -/
theorem escape_parser_overruns :
    (([0x1b, 0x5b] ++ List.replicate 17 0x3b ++ [0x30]).foldlM (termPutchar screen fun _ => 0)
      (termInit screen fun _ => 0) = .error (.overrun 17)) ∧
    [0x1b, 0x5b, 0x33, 0x38, 0x3b, 0x35, 0x3b, 0x32, 0x34, 0x30, 0x6d].foldlM
      (termPutchar screen fun _ => 0) (termInit screen fun _ => 0) = .error (.overrun 240) :=
  ⟨rfl, rfl⟩

/-- A backspace has a character before it: in its own row, or two rows up. -/
def BackInside (t : Term) (chr : BitVec 8) : Prop :=
  chr = 0x08#8 → t.enabled = true → t.escape = false →
    t.posX.toNat < 2 ^ 31 ∧ (GLYPH_X ≤ t.posX.toNat ∨ 2 * GLYPH_Y ≤ t.posY.toNat)

section Cursor
variable (hh : 2 * GLYPH_Y ≤ f.height.toNat)
include hh

/-- Behind the last whole row the screen scrolls. -/
theorem onScreen_nextRow (hlast : ¬t.posY + GLYPH_Y > f.height - GLYPH_Y) :
    (t.posY + GLYPH_Y).toNat + GLYPH_Y ≤ f.height.toNat := by
  simp only [GLYPH_Y, BitVec.natCast_eq_ofNat] at *
  bv_omega

variable (h : OnScreen f t)
include h

theorem OnScreen.newline : OnScreen f (cursorNewline f t) := by
  unfold cursorNewline
  split_ifs with hlast
  · exact ⟨h.1.pos, h.2⟩
  · exact ⟨h.1, onScreen_nextRow hh hlast⟩

theorem OnScreen.advance : OnScreen f (cursorAdvance f t) := by
  unfold cursorAdvance
  split_ifs with hedge hlast
  · exact ⟨h.1.pos, h.2⟩
  · exact ⟨h.1.pos, onScreen_nextRow hh hlast⟩
  · exact ⟨BitVec.not_le.mp hedge, h.2⟩

theorem OnScreen.putcharRaw (chr : BitVec 8) : OnScreen f (termPutcharRaw f font t chr) := by
  unfold termPutcharRaw
  split_ifs
  · exact h
  · have hline := OnScreen.newline hh (t := t.char f font 0) h
    exact ⟨hline.1.pos, hline.2⟩
  · exact ⟨h.1.pos, h.2⟩
  · exact OnScreen.advance hh (t := t.char f font chr) h

theorem OnScreen.handleEsc : Post (termHandleEsc f font t chr) (OnScreen f) fun _ => True := by
  have hcolour : ∀ c (g : BitVec 32 → Term), (∀ a, OnScreen f (g a)) →
      Post (sgrColour t.escArgs c >>= fun a => pure (g a)) (OnScreen f) fun _ => True := by
    intro c g hg
    cases sgrColour t.escArgs c with
    | error e => exact post_error.mpr trivial
    | ok a => exact post_ok.mpr (hg a)
  have hfinal : Post (escFinal f font t chr) (OnScreen f) fun _ => True := by
    unfold escFinal termSgr
    split_ifs
    · exact post_ok.mpr (Function.Iterate.rec _ h (fun _ hu => hu.putcharRaw hh 0x20) _)
    · exact hcolour _ _ fun _ => h
    · exact hcolour _ _ fun _ => h
    · exact post_ok.mpr h
    · exact post_ok.mpr ⟨h.1.pos, by unfold Term.clear termClear GLYPH_Y at *; dsimp; omega⟩
    · exact post_ok.mpr h
  unfold termHandleEsc escDigit
  dsimp only
  split_ifs
  · exact post_ok.mpr h
  · exact post_ok.mpr h
  · exact post_ok.mpr h
  · exact post_ok.mpr h
  · exact post_error.mpr trivial
  · exact post_ok.mpr h
  · exact hfinal.bind fun u hu => post_ok.mpr hu

end Cursor

theorem OnScreen.backspace (hw : GLYPH_X ≤ f.width.toNat) (h : OnScreen f t)
    (hlt : t.posX.toNat < 2 ^ 31) (hin : GLYPH_X ≤ t.posX.toNat ∨ 2 * GLYPH_Y ≤ t.posY.toNat) :
    OnScreen f (cursorBackspace f font t) := by
  obtain ⟨hx, hy⟩ := h
  unfold cursorBackspace OnScreen Term.char GLYPH_X GLYPH_Y at *
  rw [BitVec.toInt_eq_toNat_of_lt (by omega), BitVec.natCast_eq_ofNat, BitVec.natCast_eq_ofNat]
  split_ifs with hleft
  · exact ⟨by bv_omega, hy⟩
  · exact ⟨by bv_omega, by bv_omega⟩

theorem OnScreen.putchar (hw : GLYPH_X ≤ f.width.toNat) (hh : 2 * GLYPH_Y ≤ f.height.toNat)
    (h : OnScreen f t) (hback : BackInside t chr) :
    Post (termPutchar f font t chr) (OnScreen f) fun _ => True := by
  unfold termPutchar
  split_ifs with hnone hescape hstart hb
  · exact post_ok.mpr h
  · exact OnScreen.handleEsc hh h
  · exact post_ok.mpr h
  · obtain ⟨hlt, hin⟩ := hback hb (by simp at hnone; exact hnone.2) (by simpa using hescape)
    exact post_ok.mpr (OnScreen.backspace hw (t := t.char f font 0) h hlt hin)
  · exact post_ok.mpr (h.putcharRaw hh chr)

/-- Where every access is in bounds and every backspace has a character to go back to, the cursor
stays on the screen. -/
theorem cursor_on_screen {f : FramebufferInfo} (hw : GLYPH_X ≤ f.width.toNat)
    (hh : 2 * GLYPH_Y ≤ f.height.toNat) {font : ℕ → BitVec 8} {m : Mem} {bytes : List (BitVec 8)}
    (hbytes : Meets f font (fun t chr => InBounds t chr ∧ BackInside t chr) (termInit f m) bytes) :
    Taken f font (fun _ _ t' => OnScreen f t') (termInit f m) bytes := by
  have hstart : OnScreen f (termInit f m) := by
    unfold GLYPH_X GLYPH_Y at *
    exact ⟨by change 0 < _; omega, by change 0 + 16 ≤ _; omega⟩
  generalize termInit f m = t at hbytes hstart
  induction bytes generalizing t with
  | nil => trivial
  | cons chr rest ih =>
    obtain ⟨⟨hin, hback⟩, hrest⟩ := hbytes
    obtain ⟨t', hrun, -⟩ := (termPutchar_post.mpr hin).returns
    have hnext := (hstart.putchar hw hh hback).of_ok hrun
    exact ⟨t', hrun, hnext, ih t' (hrest t' hrun) hnext⟩

theorem cursor_on_screen_back :
    (GLYPH_X ≤ screen.width.toNat ∧ 2 * GLYPH_Y ≤ screen.height.toNat ∧
      Meets screen (fun _ => 0) (fun t chr => InBounds t chr ∧ BackInside t chr)
        (termInit screen fun _ => 0) [0x41, 0x08]) ∧
    Taken screen (fun _ => 0) (fun _ _ t' => OnScreen screen t') (termInit screen fun _ => 0)
      [0x41, 0x08] := by
  have hbytes : Meets screen (fun _ => 0) (fun t chr => InBounds t chr ∧ BackInside t chr)
      (termInit screen fun _ => 0) [0x41, 0x08] := by
    refine ⟨⟨fun _ h => (nomatch h), fun h => absurd h (by decide)⟩, fun t ht => ?_⟩
    cases ht
    exact ⟨⟨fun _ h => (nomatch h), fun _ _ _ => ⟨by decide, .inl (by decide)⟩⟩, fun _ _ => trivial⟩
  exact ⟨⟨by decide, by decide, hbytes⟩, cursor_on_screen (by decide) (by decide) hbytes⟩

/-- A backspace at the start of the first row goes two rows up. -/
theorem cursor_leaves_screen : ∃ t,
    termPutchar screen (fun _ => 0) (termInit screen fun _ => 0) 0x08 = .ok t ∧
    t.posY = 0xffffffe0 ∧ ¬OnScreen screen t :=
  ⟨_, rfl, rfl, fun h => absurd h.2 (by decide)⟩

end GarnOS.Terminal
