import GarnOS.Mem.Memutil
import GarnOS.Library.Runs

/-! The framebuffer, its copy for reading, and the terminal routines that draw on both. -/
namespace GarnOS
open ByteMemory Outcome Nat

def GLYPH_X : ℕ := 8
def GLYPH_Y : ℕ := 16

structure LimineFramebuffer where
  address : ℕ
  pitch : BitVec 64
  height : BitVec 64
  bpp : BitVec 16

structure FramebufferInfo where
  address : ℕ
  readAddress : ℕ
  pitch : BitVec 32
  width : BitVec 32
  height : BitVec 32
  bpp : BitVec 16
  size : BitVec 64

/-- The part of the terminal context that drawing reads. -/
structure TermContext where
  foregroundColour : BitVec 32
  backgroundColour : BitVec 32
  posX : BitVec 32
  posY : BitVec 32

def setPixel (m : Mem) (base i : ℕ) (colour : BitVec 32) : Mem := fun x =>
  if base + 4 * i ≤ x ∧ x < base + 4 * i + 4 then
    colour.extractLsb' (8 * (x - (base + 4 * i))) 8
  else m x

def pixel (m : Mem) (base i : ℕ) : BitVec 32 :=
  m (base + 4 * i + 3) ++ m (base + 4 * i + 2) ++ m (base + 4 * i + 1) ++ m (base + 4 * i)

namespace FramebufferInfo
variable (f : FramebufferInfo)

def stride : BitVec 32 := f.pitch / (f.bpp / 8).setWidth 32

def setBoth (m : Mem) (i : BitVec 32) (colour : BitVec 32) : Mem :=
  setPixel (setPixel m f.address i.toNat colour) f.readAddress i.toNat colour

def fbPixel (m : Mem) (x y colour : BitVec 32) : Mem :=
  if x ≥ f.width ∨ y ≥ f.height then m else f.setBoth m (y * f.stride + x) colour

def fbClear (m : Mem) (colour : BitVec 32) : Mem :=
  Nat.fold f.height.toNat (fun i _ m =>
    Nat.fold f.stride.toNat (fun j _ m =>
      f.setBoth m (f.stride * BitVec.ofNat 32 i + BitVec.ofNat 32 j) colour) m) m

end FramebufferInfo

def fbInit (framebuffer : LimineFramebuffer) : FramebufferInfo where
  address := framebuffer.address
  readAddress := framebuffer.address
  bpp := framebuffer.bpp
  pitch := framebuffer.pitch.setWidth 32
  width := (framebuffer.pitch / (framebuffer.bpp / 8).setWidth 64).setWidth 32
  height := framebuffer.height.setWidth 32
  size := framebuffer.height * framebuffer.pitch

/-- `term_clear`: the memory and the context with the cursor at the origin. -/
def termClear (f : FramebufferInfo) (tc : TermContext) (m : Mem) : Mem × TermContext :=
  (f.fbClear m tc.backgroundColour, { tc with posX := 0, posY := 0 })

/-- `fb_read_init`, for the block that `kmalloc` has returned and the memory it has left. -/
def fbReadInit (f : FramebufferInfo) (tc : TermContext) (m : Mem) (block : ℕ) :
    FramebufferInfo × Mem × TermContext :=
  let f := { f with readAddress := block }
  (f, termClear f tc (memset m f.readAddress 0 (f.height * f.pitch).toNat))

def termScroll (f : FramebufferInfo) (tc : TermContext) (m : Mem) (pix : BitVec 16) : Mem :=
  let cpyDest := f.readAddress
  let cpySrc := (f.pitch * pix.setWidth 32).toNat + f.readAddress
  let cpySize := f.size - (f.pitch * pix.setWidth 32).setWidth 64
  let m := memcpy m cpyDest cpySrc cpySize.toNat
  let last := (f.size - (f.pitch * pix.setWidth 32).setWidth 64).toNat + f.readAddress
  let m := memset m last 0xff (f.pitch * pix.setWidth 32).toNat
  let m := Nat.fold (f.width * pix.setWidth 32).toNat
    (fun i _ m => setPixel m last i tc.backgroundColour) m
  memcpy m f.address f.readAddress f.size.toNat

/-- The iterations of `for(i = pos; i < pos + n; i++)`: none if the bound wraps. -/
def glyphSpan (pos : BitVec 32) (n : ℕ) : ℕ := if pos < pos + BitVec.ofNat 32 n then n else 0

def termChar (f : FramebufferInfo) (font : ℕ → BitVec 8) (tc : TermContext) (m : Mem)
    (chr : BitVec 8) : Mem :=
  Nat.fold (glyphSpan tc.posY GLYPH_Y) (fun row _ m =>
    Nat.fold (glyphSpan tc.posX GLYPH_X) (fun col _ m =>
      let i := tc.posY + BitVec.ofNat 32 row
      let j := tc.posX + BitVec.ofNat 32 col
      let m := f.fbPixel m j i tc.backgroundColour
      if font (chr.toNat * GLYPH_Y + row) &&& (0b10000000#8 >>> col) ≠ 0 then
        f.fbPixel m j i tc.foregroundColour
      else m) m) m

/-- A call of a drawing routine. Colours and cursor may have changed since the last one. -/
inductive DrawStep (f : FramebufferInfo) (font : ℕ → BitVec 8) : Mem → Mem → Prop
  | pixel (m : Mem) (x y colour : BitVec 32) : DrawStep f font m (f.fbPixel m x y colour)
  | clear (m : Mem) (colour : BitVec 32) : DrawStep f font m (f.fbClear m colour)
  | scroll (m : Mem) (tc : TermContext) (pix : BitVec 16) (h : pix.toNat ≤ f.height.toNat) :
      DrawStep f font m (termScroll f tc m pix)
  | char (m : Mem) (tc : TermContext) (chr : BitVec 8) :
      DrawStep f font m (termChar f font tc m chr)

def FramebufferInfo.Agree (f : FramebufferInfo) (m : Mem) (n : ℕ) : Prop :=
  ∀ q < n, m (f.address + q) = m (f.readAddress + q)

/-- The rows have moved up by `pix`, and the last ones have the colour. -/
structure Scrolled (f : FramebufferInfo) (colour : BitVec 32) (pix : ℕ) (base : ℕ) (m m' : Mem) :
    Prop where
  moved : ∀ r k, r + pix < f.height.toNat → k < f.pitch.toNat →
    m' (base + r * f.pitch.toNat + k) = m (base + (r + pix) * f.pitch.toNat + k)
  filled : ∀ r j, r < f.height.toNat → f.height.toNat ≤ r + pix → j < f.width.toNat →
    pixel m' base (r * f.width.toNat + j) = colour

/-- The dimensions that `fb_init` computes for 32 bits per pixel, and two copies that are apart. -/
structure FramebufferOk (f : FramebufferInfo) : Prop where
  bpp : f.bpp = 32
  pitch : f.pitch.toNat = 4 * f.width.toNat
  size : f.size.toNat = f.height.toNat * f.pitch.toNat
  size_lt : f.size.toNat < 2 ^ 32
  apart : f.address + f.size.toNat ≤ f.readAddress ∨ f.readAddress + f.size.toNat ≤ f.address

section Pixels
variable {m : Mem} {base i : ℕ} {colour : BitVec 32}

theorem setPixel_add (m : Mem) (base i q : ℕ) (colour : BitVec 32) :
    setPixel m base i colour (base + q) =
      if 4 * i ≤ q ∧ q < 4 * i + 4 then colour.extractLsb' (8 * (q - 4 * i)) 8 else m (base + q) := by
  have hiff : (base + 4 * i ≤ base + q ∧ base + q < base + 4 * i + 4) ↔
      (4 * i ≤ q ∧ q < 4 * i + 4) := by omega
  simp only [setPixel, hiff, show base + q - (base + 4 * i) = q - 4 * i by omega]

theorem setPixel_of_outside {x : ℕ} (h : x < base + 4 * i ∨ base + 4 * i + 4 ≤ x) :
    setPixel m base i colour x = m x :=
  if_neg (by omega)

theorem pixel_eq_of_bytes (h : ∀ k < 4, m (base + 4 * i + k) = colour.extractLsb' (8 * k) 8) :
    pixel m base i = colour := by
  have h0 : m (base + 4 * i) = colour.extractLsb' 0 8 := h 0 (by omega)
  unfold pixel
  rw [h 3 (by omega), h 2 (by omega), h 1 (by omega), h0]
  apply BitVec.eq_of_getLsbD_eq
  intro b hb
  simp only [BitVec.getLsbD_append, BitVec.getLsbD_extractLsb']
  repeat' split
  all_goals
    rw [show decide (_ < 8) = true by simp; omega, Bool.true_and]
    congr 1
    omega

theorem fold_setPixel (m : Mem) (base n : ℕ) (colour : BitVec 32) (x : ℕ) :
    Nat.fold n (fun i _ m => setPixel m base i colour) m x =
      if base ≤ x ∧ x < base + 4 * n then colour.extractLsb' (8 * ((x - base) % 4)) 8 else m x := by
  refine fold_invariant (fun i (t : Mem) => t x = if base ≤ x ∧ x < base + 4 * i then
    colour.extractLsb' (8 * ((x - base) % 4)) 8 else m x) ?_ ?_
  · rw [if_neg (by omega)]
  · intro i t _ ht
    by_cases hx : base + 4 * i ≤ x ∧ x < base + 4 * i + 4
    · rw [if_pos (by omega), setPixel, if_pos hx, show (x - base) % 4 = x - (base + 4 * i) by omega]
    · rw [setPixel, if_neg hx, ht]
      have hiff : (base ≤ x ∧ x < base + 4 * i) ↔ (base ≤ x ∧ x < base + 4 * (i + 1)) := by omega
      simp [hiff]

end Pixels

namespace FramebufferOk
variable {f : FramebufferInfo} {m : Mem} {n : ℕ} {font : ℕ → BitVec 8}

section
variable (h : FramebufferOk f)
include h

theorem stride_eq : f.stride.toNat = f.width.toNat := by
  have hp := h.pitch
  unfold FramebufferInfo.stride
  rw [h.bpp, BitVec.toNat_udiv, show BitVec.toNat (((32 : BitVec 16) / 8).setWidth 32) = 4 from rfl]
  omega

theorem size_eq : f.size.toNat = 4 * (f.height.toNat * f.width.toNat) := by
  rw [h.size, h.pitch]
  ring

theorem setBoth_agree {i : BitVec 32} (hi : 4 * i.toNat + 4 ≤ f.size.toNat) (hn : n ≤ f.size.toNat)
    (hagree : f.Agree m n) (hle : 4 * i.toNat ≤ n) (colour : BitVec 32) :
    f.Agree (f.setBoth m i colour) (max n (4 * i.toNat + 4)) := by
  intro q hq
  have hapart := h.apart
  unfold FramebufferInfo.setBoth
  rw [setPixel_of_outside (by omega), setPixel_add, setPixel_add]
  by_cases hin : 4 * i.toNat ≤ q ∧ q < 4 * i.toNat + 4
  · rw [if_pos hin, if_pos hin]
  · rw [if_neg hin, if_neg hin, setPixel_of_outside (by omega)]
    exact hagree q (by omega)

theorem fbPixel_agree (hagree : f.Agree m f.size.toNat) (x y colour : BitVec 32) :
    f.Agree (f.fbPixel m x y colour) f.size.toNat := by
  unfold FramebufferInfo.fbPixel
  split
  · exact hagree
  · rename_i hin
    obtain ⟨hx, hy⟩ := not_or.mp hin
    have hlt : y.toNat * f.width.toNat + x.toNat < f.height.toNat * f.width.toNat := by
      have hx : x.toNat < f.width.toNat := not_le.mp hx
      have hy : y.toNat + 1 ≤ f.height.toNat := Nat.not_le.mp hy
      have hrow := mul_le_mul_right f.width.toNat hy
      rw [add_mul] at hrow
      omega
    have hsize := h.size_eq
    have hsize_lt := h.size_lt
    have hindex : (y * f.stride + x).toNat = y.toNat * f.width.toNat + x.toNat := by
      rw [BitVec.toNat_add, BitVec.toNat_mul, h.stride_eq, mod_add_mod]
      exact mod_eq_of_lt (by omega)
    have hmax := h.setBoth_agree (i := y * f.stride + x) (by omega) le_rfl hagree (by omega) colour
    rwa [max_eq_left (by omega)] at hmax

theorem fbClear_agree (m : Mem) (colour : BitVec 32) :
    f.Agree (f.fbClear m colour) f.size.toNat := by
  have hsize := h.size_eq
  have hsize_lt := h.size_lt
  rw [hsize]
  -- the pixels before the current one agree, in the rows and inside a row
  refine fold_invariant (fun i t => f.Agree t (4 * (i * f.width.toNat))) ?_ fun i t hi ht => ?_
  · intro q hq
    omega
  · have hrow := mul_le_mul_right f.width.toNat (succ_le_of_lt hi)
    rw [succ_mul] at hrow
    rw [add_mul, one_mul, h.stride_eq]
    refine fold_invariant (fun j t => f.Agree t (4 * (i * f.width.toNat + j))) ht
      fun j u hj hu => ?_
    have hindex : (f.stride * BitVec.ofNat 32 i + BitVec.ofNat 32 j).toNat =
        i * f.width.toNat + j := by
      rw [BitVec.toNat_add, BitVec.toNat_mul, BitVec.toNat_ofNat, BitVec.toNat_ofNat, h.stride_eq,
        mod_eq_of_lt (lt_trans hi f.height.isLt), mod_eq_of_lt (lt_trans hj f.width.isLt),
        mod_add_mod, mul_comm]
      exact mod_eq_of_lt (by omega)
    have hmax := h.setBoth_agree (i := f.stride * BitVec.ofNat 32 i + BitVec.ofNat 32 j)
      (by omega) (by omega) hu (by omega) colour
    rw [hindex] at hmax
    rwa [max_eq_right (by omega)] at hmax

theorem termChar_agree (hagree : f.Agree m f.size.toNat) (tc : TermContext) (chr : BitVec 8) :
    f.Agree (termChar f font tc m chr) f.size.toNat := by
  refine fold_invariant (fun _ t => f.Agree t f.size.toNat) hagree fun row t _ ht => ?_
  refine fold_invariant (fun _ t => f.Agree t f.size.toNat) ht fun col u _ hu => ?_
  have hback := h.fbPixel_agree hu (tc.posX + BitVec.ofNat 32 col) (tc.posY + BitVec.ofNat 32 row)
    tc.backgroundColour
  split
  · exact h.fbPixel_agree hback _ _ _
  · exact hback

theorem termScroll_at (tc : TermContext) (m : Mem) {pix : BitVec 16}
    (hpix : pix.toNat ≤ f.height.toNat) {base : ℕ} (hbase : base = f.address ∨ base = f.readAddress)
    {q : ℕ} (hq : q < f.size.toNat) : termScroll f tc m pix (base + q) =
      if q + f.pitch.toNat * pix.toNat < f.size.toNat then
        m (f.readAddress + (q + f.pitch.toNat * pix.toNat))
      else tc.backgroundColour.extractLsb' (8 * (q % 4)) 8 := by
  have hsize := h.size
  have hsize_lt := h.size_lt
  have hpitch := h.pitch
  have hapart := h.apart
  have hwide : (pix.setWidth 32).toNat = pix.toNat := by
    rw [BitVec.toNat_setWidth, mod_eq_of_lt (by have := pix.isLt; omega)]
  have hle : f.pitch.toNat * pix.toNat ≤ f.size.toNat := by
    rw [hsize, mul_comm f.height.toNat]
    exact mul_le_mul_left _ hpix
  have hfour : f.pitch.toNat * pix.toNat = 4 * (f.width.toNat * pix.toNat) := by
    rw [hpitch, mul_assoc]
  have hmod : f.size.toNat % 4 = 0 := by
    rw [h.size_eq]
    omega
  have hrows : (f.pitch * pix.setWidth 32).toNat = f.pitch.toNat * pix.toNat := by
    rw [BitVec.toNat_mul, hwide, mod_eq_of_lt (by omega)]
  have hpixels : (f.width * pix.setWidth 32).toNat = f.width.toNat * pix.toNat := by
    rw [BitVec.toNat_mul, hwide, mod_eq_of_lt (by omega)]
  have hkept : (f.size - (f.pitch * pix.setWidth 32).setWidth 64).toNat =
      f.size.toNat - f.pitch.toNat * pix.toNat := by
    rw [BitVec.toNat_sub, BitVec.toNat_setWidth, hrows]
    omega
  unfold termScroll
  generalize f.pitch.toNat * pix.toNat = p at *
  generalize f.width.toNat * pix.toNat = w at *
  rw [memcpy_eq_copy _ hapart]
  have hread : ∀ t : Mem, copy t f.address f.readAddress f.size.toNat (base + q) =
      t (f.readAddress + q) := by
    intro t
    obtain rfl | rfl := hbase
    · rw [copy_in t (by omega) (by omega), Nat.add_sub_cancel_left]
    · exact if_neg (by omega)
  rw [hread, fold_setPixel, memset_eq_fill, memcpy_forward _ (.inl (by omega))]
  by_cases hkeep : q + p < f.size.toNat
  · rw [if_neg (by omega), if_pos hkeep, fill, if_neg (by omega), copy_in m (by omega) (by omega)]
    congr 1
    omega
  · rw [if_pos (by omega), if_neg hkeep]
    congr 2
    omega

theorem termScroll_agree (tc : TermContext) (m : Mem) {pix : BitVec 16}
    (hpix : pix.toNat ≤ f.height.toNat) : f.Agree (termScroll f tc m pix) f.size.toNat := by
  intro q hq
  rw [h.termScroll_at tc m hpix (.inl rfl) hq, h.termScroll_at tc m hpix (.inr rfl) hq]

end

theorem termScroll_scrolled (h : FramebufferOk f) (tc : TermContext)
    (hagree : f.Agree m f.size.toNat) {pix : BitVec 16} (hpix : pix.toNat ≤ f.height.toNat)
    {base : ℕ} (hbase : base = f.address ∨ base = f.readAddress) :
    Scrolled f tc.backgroundColour pix.toNat base m (termScroll f tc m pix) := by
  have hsize := h.size
  constructor
  · intro r k hr hk
    have hrow : (r + pix.toNat) * f.pitch.toNat + f.pitch.toNat ≤ f.size.toNat := by
      rw [hsize, ← succ_mul]
      exact mul_le_mul_right _ hr
    have hmove : (r + pix.toNat) * f.pitch.toNat =
        r * f.pitch.toNat + f.pitch.toNat * pix.toNat := by ring
    have hold : m (base + (r + pix.toNat) * f.pitch.toNat + k) =
        m (f.readAddress + ((r + pix.toNat) * f.pitch.toNat + k)) := by
      rw [add_assoc]
      obtain rfl | rfl := hbase
      · exact hagree _ (by omega)
      · rfl
    rw [add_assoc, h.termScroll_at tc m hpix hbase (by omega), if_pos (by omega), hold, hmove]
    congr 1
    omega
  · intro r j hr hlast hj
    apply pixel_eq_of_bytes
    intro k hk
    have hrow : r * f.width.toNat + f.width.toNat ≤ f.height.toNat * f.width.toNat := by
      rw [← succ_mul]
      exact mul_le_mul_right _ hr
    have hfilled : f.height.toNat * f.width.toNat ≤
        r * f.width.toNat + f.width.toNat * pix.toNat := by
      calc f.height.toNat * f.width.toNat ≤ (r + pix.toNat) * f.width.toNat :=
            mul_le_mul_right _ hlast
        _ = r * f.width.toNat + f.width.toNat * pix.toNat := by ring
    have hpixels : f.pitch.toNat * pix.toNat = 4 * (f.width.toNat * pix.toNat) := by
      rw [h.pitch, mul_assoc]
    have hcells := h.size_eq
    rw [add_assoc, h.termScroll_at tc m hpix hbase (by omega), if_neg (by omega)]
    congr 2
    omega

theorem step_agree (h : FramebufferOk f) {m' : Mem} (hagree : f.Agree m f.size.toNat)
    (hstep : DrawStep f font m m') : f.Agree m' f.size.toNat := by
  cases hstep with
  | pixel x y colour => exact h.fbPixel_agree hagree x y colour
  | clear colour => exact h.fbClear_agree m colour
  | scroll tc pix hpix => exact h.termScroll_agree tc m hpix
  | char tc chr => exact h.termChar_agree hagree tc chr

end FramebufferOk

theorem fbReadInit_ok (fb : LimineFramebuffer) (hbpp : fb.bpp = 32)
    (hpitch : fb.pitch.toNat % 4 = 0) (hheight : GLYPH_Y ≤ fb.height.toNat)
    (hsize : fb.height.toNat * fb.pitch.toNat < 2 ^ 32) (tc : TermContext)
    (m : Mem)
    {block : ℕ} (hblock : fb.address + fb.height.toNat * fb.pitch.toNat ≤ block ∨
      block + fb.height.toNat * fb.pitch.toNat ≤ fb.address) :
    FramebufferOk (fbReadInit (fbInit fb) tc m block).1 := by
  have hle : fb.pitch.toNat ≤ fb.height.toNat * fb.pitch.toNat :=
    Nat.le_mul_of_pos_left _ (lt_of_lt_of_le (by decide) hheight)
  have hp : (fb.pitch.setWidth 32).toNat = fb.pitch.toNat := by
    rw [BitVec.toNat_setWidth, mod_eq_of_lt (by omega)]
  have hw : ((fb.pitch / (fb.bpp / 8).setWidth 64).setWidth 32).toNat =
      fb.pitch.toNat / 4 := by
    rw [hbpp, BitVec.toNat_setWidth, BitVec.toNat_udiv,
      show BitVec.toNat (((32 : BitVec 16) / 8).setWidth 64) = 4 from rfl]
    omega
  have hs : (fb.height * fb.pitch).toNat =
      fb.height.toNat * fb.pitch.toNat := by
    rw [BitVec.toNat_mul, mod_eq_of_lt (by omega)]
  refine ⟨hbpp, ?_, ?_, ?_, ?_⟩
  · change (fb.pitch.setWidth 32).toNat = 4 * _
    rw [hp]
    change _ = 4 * ((fb.pitch / (fb.bpp / 8).setWidth 64).setWidth 32).toNat
    omega
  · change (fb.height * fb.pitch).toNat =
      (fb.height.setWidth 32).toNat * (fb.pitch.setWidth 32).toNat
    rw [hs, hp]
    obtain hzero | hpos := Nat.eq_zero_or_pos fb.pitch.toNat
    · rw [hzero, mul_zero, mul_zero]
    · have hh : fb.height.toNat ≤ fb.height.toNat * fb.pitch.toNat :=
        Nat.le_mul_of_pos_right _ hpos
      rw [BitVec.toNat_setWidth, mod_eq_of_lt (by omega)]
  · exact lt_of_eq_of_lt hs hsize
  · change fb.address + (fb.height * fb.pitch).toNat ≤ block ∨
      block + (fb.height * fb.pitch).toNat ≤ fb.address
    rwa [hs]

/-- After `fb_read_init` the framebuffer and its copy agree in every state that drawing reaches, and
a scroll moves the rows of both. -/
theorem framebuffer_copies_agree (framebuffer : LimineFramebuffer) (hbpp : framebuffer.bpp = 32)
    (hpitch : framebuffer.pitch.toNat % 4 = 0) (hheight : GLYPH_Y ≤ framebuffer.height.toNat)
    (hsize : framebuffer.height.toNat * framebuffer.pitch.toNat < 2 ^ 32) (font : ℕ → BitVec 8)
    (tc : TermContext) (m : Mem) (block : ℕ)
    (hblock : framebuffer.address + framebuffer.height.toNat * framebuffer.pitch.toNat ≤ block ∨
      block + framebuffer.height.toNat * framebuffer.pitch.toNat ≤ framebuffer.address)
    {f : FramebufferInfo} {m₀ : Mem} {tc₀ : TermContext}
    (hinit : fbReadInit (fbInit framebuffer) tc m block = (f, m₀, tc₀)) {m' : Mem}
    (hrun : Relation.ReflTransGen (DrawStep f font) m₀ m') :
    (∀ q < f.size.toNat, m' (f.address + q) = m' (f.readAddress + q)) ∧
    ∀ (tc : TermContext) (pix : BitVec 16), pix.toNat ≤ f.height.toNat →
      Scrolled f tc.backgroundColour pix.toNat f.address m' (termScroll f tc m' pix) ∧
      Scrolled f tc.backgroundColour pix.toNat f.readAddress m' (termScroll f tc m' pix) := by
  have hok : FramebufferOk f := by
    have hinfo := fbReadInit_ok framebuffer hbpp hpitch hheight hsize tc m hblock
    rwa [hinit] at hinfo
  have hstart : f.Agree m₀ f.size.toNat := by
    obtain ⟨rfl, hrest⟩ := Prod.mk.inj hinit
    cases hrest
    exact hok.fbClear_agree _ _
  have hstep : ∀ a b, f.Agree a f.size.toNat → DrawStep f font a b → f.Agree b f.size.toNat :=
    fun _ _ => hok.step_agree
  have hagree := Runs.invariant hstep hstart hrun
  refine ⟨hagree, fun tc pix hpix => ⟨?_, ?_⟩⟩
  · exact hok.termScroll_scrolled tc hagree hpix (.inl rfl)
  · exact hok.termScroll_scrolled tc hagree hpix (.inr rfl)

def smallScreen : LimineFramebuffer := ⟨0x10000, 32, 16, 32⟩

/-- The screen after it has been scrolled by half. -/
theorem framebuffer_copies_agree_half :
    let r := fbReadInit (fbInit smallScreen) ⟨0xffffffff, 0, 0, 0⟩ (fun _ => 0) 0x20000
    let m' := termScroll r.1 r.2.2 r.2.1 8
    (∀ q < r.1.size.toNat, m' (r.1.address + q) = m' (r.1.readAddress + q)) ∧
    ∀ (tc : TermContext) (pix : BitVec 16), pix.toNat ≤ r.1.height.toNat →
      Scrolled r.1 tc.backgroundColour pix.toNat r.1.address m' (termScroll r.1 tc m' pix) ∧
      Scrolled r.1 tc.backgroundColour pix.toNat r.1.readAddress m' (termScroll r.1 tc m' pix) :=
  framebuffer_copies_agree smallScreen rfl (by decide) (by decide) (by decide) (fun _ => 0) _ _ _
    (by decide) rfl (.single (.scroll _ _ 8 (by decide)))

end GarnOS
