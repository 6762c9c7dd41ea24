import Mathlib.Data.Nat.Bitwise
import Mathlib.Logic.Function.Basic
import Mathlib.Tactic.IntervalCases

/-! PCI configuration space behind the ports `PCI_CONFIG_ADDRESS` and `PCI_CONFIG_DATA`, and the
hooks of uACPI that reach it. -/
namespace GarnOS.Pci
open Function Nat BitVec

def PCI_CONFIG_ADDRESS : BitVec 16 := 0xCF8
def PCI_CONFIG_DATA : BitVec 16 := 0xCFC

structure PciLocation where
  bus : BitVec 8
  dev : BitVec 8
  func : BitVec 8

/-- The address register, and the dword of configuration space that each of its values selects. -/
structure Ports where
  address : BitVec 32
  config : BitVec 32 → BitVec 32

def archOutl (s : Ports) (port : BitVec 16) (value : BitVec 32) : Ports :=
  if port = PCI_CONFIG_ADDRESS then { s with address := value }
  else if port = PCI_CONFIG_DATA then
    { s with config := update s.config s.address value }
  else s

def archInl (s : Ports) (port : BitVec 16) : BitVec 32 :=
  if port = PCI_CONFIG_ADDRESS then s.address
  else if port = PCI_CONFIG_DATA then s.config s.address
  else 0xFFFFFFFF

/-- The value for the address register: the dword that holds the byte at `offset`. -/
def configAddress (location : PciLocation) (offset : BitVec 8) : BitVec 32 :=
  (location.bus.setWidth 32 <<< 16) ||| (location.dev.setWidth 32 <<< 11) |||
    (location.func.setWidth 32 <<< 8) ||| (offset.setWidth 32 &&& 0xFC) ||| 0x80000000

def pciConfigReadWord (s : Ports) (location : PciLocation) (offset : BitVec 8) :
    BitVec 16 × Ports :=
  let s := archOutl s PCI_CONFIG_ADDRESS (configAddress location offset)
  (((archInl s PCI_CONFIG_DATA >>> ((offset &&& 2).toNat * 8)) &&& 0xFFFF).setWidth 16, s)

/-- The shift is one of the 16-bit value, and the store one of the whole dword. -/
def pciConfigWriteWord (s : Ports) (location : PciLocation) (offset : BitVec 8)
    (data : BitVec 16) : Ports :=
  let s := archOutl s PCI_CONFIG_ADDRESS (configAddress location offset)
  archOutl s PCI_CONFIG_DATA (data.setWidth 32 >>> ((offset &&& 2).toNat * 8))

def pciConfigReadAddress (s : Ports) (location : PciLocation) (offset : BitVec 8) :
    BitVec 32 × Ports :=
  let low := pciConfigReadWord s location offset
  let high := pciConfigReadWord low.2 location (offset + 2)
  (low.1.setWidth 32 ||| ((high.1.setWidth 32 <<< 16) &&& 0xFFFF0000), high.2)

/-- `uacpi_pci_address`. The hooks do not look at the segment. -/
structure UacpiPciAddress where
  segment : BitVec 16
  bus : BitVec 8
  device : BitVec 8
  function : BitVec 8

def UacpiPciAddress.location (a : UacpiPciAddress) : PciLocation := ⟨a.bus, a.device, a.function⟩

def uacpiKernelPciRead (s : Ports) (a : UacpiPciAddress) (offset : BitVec 64) (byteWidth : BitVec 8)
    (value : BitVec 64) : BitVec 64 × Ports :=
  if byteWidth = 1 then
    let r := pciConfigReadWord s a.location (offset.setWidth 8)
    (((r.1 &&& 0xFF).setWidth 8).setWidth 64, r.2)
  else if byteWidth = 2 then
    let r := pciConfigReadWord s a.location (offset.setWidth 8)
    (r.1.setWidth 64, r.2)
  else if byteWidth = 4 then
    let r := pciConfigReadAddress s a.location (offset.setWidth 8)
    (r.1.setWidth 64, r.2)
  else (value, s)

def uacpiKernelPciWrite (s : Ports) (a : UacpiPciAddress) (offset : BitVec 64)
    (byteWidth : BitVec 8)
    (value : BitVec 64) : Ports :=
  if byteWidth = 1 then
    let r := pciConfigReadWord s a.location (offset.setWidth 8)
    let pciWord := ((r.1.setWidth 64 &&& 0xFF00) ||| (value &&& 0xFF)).setWidth 16
    pciConfigWriteWord r.2 a.location (offset.setWidth 8) pciWord
  else if byteWidth = 2 then
    pciConfigWriteWord s a.location (offset.setWidth 8) (value.setWidth 16)
  else if byteWidth = 4 then
    let s := pciConfigWriteWord s a.location (offset.setWidth 8) ((value &&& 0xFFFF).setWidth 16)
    let value := value >>> 16
    pciConfigWriteWord s a.location ((offset + 2).setWidth 8) ((value &&& 0xFFFF).setWidth 16)
  else s

/-- The number in the bytes `r, …, r + w - 1` of a dword. -/
def field (d : BitVec 32) (r w : ℕ) : ℕ := d.toNat / 2 ^ (8 * r) % 2 ^ (8 * w)

/-- A read returns the stored bytes; a write followed by a read returns the value, cut to the width,
and changes no other byte. -/
structure Consistent (s : Ports) (a : UacpiPciAddress) (offset : BitVec 64) (byteWidth : BitVec 8)
    (value old : BitVec 64) : Prop where
  read : (uacpiKernelPciRead s a offset byteWidth old).1.toNat =
    field (s.config (configAddress a.location (offset.setWidth 8)))
      (offset.toNat % 4) byteWidth.toNat
  roundTrip : (uacpiKernelPciRead (uacpiKernelPciWrite s a offset byteWidth value) a offset byteWidth
    old).1.toNat = value.toNat % 2 ^ (8 * byteWidth.toNat)
  frame : ∀ b k, k < 4 → ¬(b = configAddress a.location (offset.setWidth 8) ∧
      offset.toNat % 4 ≤ k ∧ k < offset.toNat % 4 + byteWidth.toNat) →
    field ((uacpiKernelPciWrite s a offset byteWidth value).config b) k 1 = field (s.config b) k 1

section Words
variable {s : Ports} {location : PciLocation} {offset : BitVec 8}

theorem shift_eq (offset : BitVec 8) : (offset &&& 2).toNat * 8 = 16 * (offset.toNat % 4 / 2) := by
  revert offset
  decide

theorem readWord_snd_config (s : Ports) (location : PciLocation) (offset : BitVec 8) :
    (pciConfigReadWord s location offset).2.config = s.config := rfl

theorem readWord_toNat (s : Ports) (location : PciLocation) (offset : BitVec 8) :
    (pciConfigReadWord s location offset).1.toNat =
      (s.config (configAddress location offset)).toNat / 2 ^ (16 * (offset.toNat % 4 / 2)) % 2 ^ 16 := by
  have hin : archInl (archOutl s PCI_CONFIG_ADDRESS (configAddress location offset)) PCI_CONFIG_DATA =
      s.config (configAddress location offset) := rfl
  simp only [pciConfigReadWord, hin, shift_eq]
  rw [toNat_setWidth, toNat_and, toNat_ushiftRight, shiftRight_eq_div_pow,
    show BitVec.toNat (0xFFFF : BitVec 32) = 2 ^ 16 - 1 from rfl, and_two_pow_sub_one_eq_mod,
    mod_mod]

theorem writeWord_config (s : Ports) (location : PciLocation) (offset : BitVec 8)
    (data : BitVec 16) : (pciConfigWriteWord s location offset data).config =
      update s.config (configAddress location offset)
        (data.setWidth 32 >>> (16 * (offset.toNat % 4 / 2))) := by
  rw [← shift_eq]
  rfl

theorem configAddress_add_two (location : PciLocation) (h : offset.toNat % 4 = 0) :
    configAddress location (offset + 2) = configAddress location offset := by
  have hmask : ∀ o : BitVec 8, o.toNat % 4 = 0 →
      (o + 2).setWidth 32 &&& (0xFC : BitVec 32) = o.setWidth 32 &&& 0xFC := by decide
  unfold configAddress
  rw [hmask offset h]

theorem add_two_mod (h : offset.toNat % 4 = 0) : (offset + 2).toNat % 4 / 2 = 1 := by
  revert offset
  decide

theorem join_words (low high : BitVec 16) :
    low.setWidth 32 ||| ((high.setWidth 32 <<< 16) &&& 0xFFFF0000) = high ++ low := by
  have hmask : ∀ i < 32, (0xFFFF0000 : BitVec 32).getLsbD i = decide (16 ≤ i) := by decide
  apply eq_of_getLsbD_eq
  intro i hi
  rw [getLsbD_or, getLsbD_and, getLsbD_shiftLeft, getLsbD_setWidth,
    getLsbD_setWidth, getLsbD_append, hmask i hi]
  by_cases hlow : i < 16
  · simp [hlow, hi]
  · simp [hlow, hi, not_lt.mp hlow, show i - 16 < 32 by omega]

theorem readAddress_toNat (s : Ports) (location : PciLocation) (h : offset.toNat % 4 = 0) :
    (pciConfigReadAddress s location offset).1 = s.config (configAddress location offset) := by
  have hlow := readWord_toNat s location offset
  have hhigh := readWord_toNat (pciConfigReadWord s location offset).2 location (offset + 2)
  rw [h] at hlow
  rw [add_two_mod h, configAddress_add_two location h, readWord_snd_config] at hhigh
  apply eq_of_toNat_eq
  simp only [pciConfigReadAddress, join_words, toNat_append]
  rw [← shiftLeft_add_eq_or_of_lt (isLt _), Nat.shiftLeft_eq, hlow, hhigh]
  omega

theorem mergeByte_toNat (pciWord : BitVec 16) (value : BitVec 64) :
    (((pciWord.setWidth 64 &&& 0xFF00) ||| (value &&& 0xFF)).setWidth 16).toNat =
      pciWord.toNat / 256 * 256 + value.toNat % 256 := by
  have hmask : ∀ i < 16, (0xFF00 : BitVec 64).getLsbD i = decide (8 ≤ i) ∧
      (0xFF : BitVec 64).getLsbD i = decide (i < 8) := by decide
  have hjoin : ((pciWord.setWidth 64 &&& 0xFF00) ||| (value &&& 0xFF)).setWidth 16 =
      pciWord.extractLsb' 8 8 ++ value.setWidth 8 := by
    apply eq_of_getLsbD_eq
    intro i hi
    have hi64 : i < 64 := by omega
    rw [getLsbD_setWidth, getLsbD_or, getLsbD_and, getLsbD_and,
      getLsbD_setWidth, getLsbD_append, getLsbD_extractLsb',
      getLsbD_setWidth, (hmask i hi).1, (hmask i hi).2]
    by_cases hlow : i < 8
    · simp [hlow, hi, hi64]
    · simp [hlow, hi, hi64, not_lt.mp hlow, show i - 8 < 8 by omega,
        show 8 + (i - 8) = i by omega]
  rw [hjoin, toNat_append, ← shiftLeft_add_eq_or_of_lt (isLt _), Nat.shiftLeft_eq,
    extractLsb'_toNat, toNat_setWidth, shiftRight_eq_div_pow]
  omega

end Words

/-- The accesses of uACPI: an aligned one inside the 256 bytes of a function. -/
structure Aligned (offset : BitVec 64) (byteWidth : BitVec 8) : Prop where
  width : byteWidth = 1 ∨ byteWidth = 2 ∨ byteWidth = 4
  inside : offset.toNat < 256
  aligned : offset.toNat % byteWidth.toNat = 0

section Hooks
variable {s : Ports} {a : UacpiPciAddress} {offset value old : BitVec 64} {byteWidth : BitVec 8}

theorem Aligned.toNat_offset (h : Aligned offset byteWidth) :
    (offset.setWidth 8).toNat = offset.toNat := by
  rw [toNat_setWidth, mod_eq_of_lt h.inside]

theorem pciRead_toNat (h : Aligned offset byteWidth) (s : Ports) (a : UacpiPciAddress)
    (old : BitVec 64) : (uacpiKernelPciRead s a offset byteWidth old).1.toNat =
      (s.config (configAddress a.location (offset.setWidth 8))).toNat /
        2 ^ (16 * (offset.toNat % 4 / 2)) % 2 ^ (8 * byteWidth.toNat) := by
  have hword := readWord_toNat s a.location (offset.setWidth 8)
  rw [h.toNat_offset] at hword
  obtain rfl | rfl | rfl := h.width
  · have hlow : ∀ w : BitVec 16,
        (((w &&& 0xFF).setWidth 8).setWidth 64).toNat = w.toNat % 2 ^ 8 := by
      intro w
      rw [toNat_setWidth, toNat_setWidth, toNat_and,
        show BitVec.toNat (0xFF : BitVec 16) = 2 ^ 8 - 1 from rfl, and_two_pow_sub_one_eq_mod]
      omega
    change ((((pciConfigReadWord s a.location (offset.setWidth 8)).1 &&& 0xFF).setWidth 8).setWidth
      64).toNat = _
    rw [hlow, hword, show BitVec.toNat (1 : BitVec 8) = 1 from rfl]
    omega
  · change (setWidth 64 _).toNat = _
    rw [toNat_setWidth, hword, show BitVec.toNat (2 : BitVec 8) = 2 from rfl]
    omega
  · have haligned : (offset.setWidth 8).toNat % 4 = 0 := h.toNat_offset ▸ h.aligned
    have hdword := readAddress_toNat s a.location haligned
    change (setWidth 64 (pciConfigReadAddress s a.location (offset.setWidth 8)).1).toNat = _
    rw [hdword, toNat_setWidth, show BitVec.toNat (4 : BitVec 8) = 4 from rfl,
      show offset.toNat % 4 = 0 from h.aligned]
    omega

def written (d r w value : ℕ) : ℕ :=
  if w = 1 then (d / 2 ^ (16 * (r / 2)) % 2 ^ 16 / 256 * 256 + value % 256) / 2 ^ (16 * (r / 2))
  else if w = 2 then value % 2 ^ 16 / 2 ^ (16 * (r / 2))
  else 0

theorem pciWrite_config (h : Aligned offset byteWidth) (s : Ports) (a : UacpiPciAddress)
    (value : BitVec 64) : ∃ d, (uacpiKernelPciWrite s a offset byteWidth value).config =
        update s.config (configAddress a.location (offset.setWidth 8)) d ∧
      d.toNat = written (s.config (configAddress a.location (offset.setWidth 8))).toNat
        (offset.toNat % 4) byteWidth.toNat value.toNat := by
  have hword := readWord_toNat s a.location (offset.setWidth 8)
  rw [h.toNat_offset] at hword
  have hstore : ∀ (data : BitVec 16) n, (data.setWidth 32 >>> n).toNat = data.toNat / 2 ^ n := by
    intro data n
    rw [toNat_ushiftRight, toNat_setWidth, mod_eq_of_lt (by omega),
      shiftRight_eq_div_pow]
  obtain rfl | rfl | rfl := h.width
  · refine ⟨_, writeWord_config _ _ _ _, ?_⟩
    rw [hstore, mergeByte_toNat, hword, h.toNat_offset]
    rfl
  · refine ⟨_, writeWord_config _ _ _ _, ?_⟩
    rw [hstore, toNat_setWidth, h.toNat_offset]
    rfl
  · have haligned : (offset.setWidth 8).toNat % 4 = 0 := h.toNat_offset ▸ h.aligned
    have htwo : (offset + 2).setWidth 8 = offset.setWidth 8 + 2 := by
      rw [setWidth_add _ _ (by decide)]
      rfl
    have hconfig : (uacpiKernelPciWrite s a offset 4 value).config = _ :=
      writeWord_config _ _ _ _
    rw [htwo, configAddress_add_two _ haligned, writeWord_config, update_idem] at hconfig
    refine ⟨_, hconfig, ?_⟩
    rw [hstore, add_two_mod haligned]
    exact div_eq_of_lt (isLt _)

variable {r w : ℕ}

theorem frame_update {config : BitVec 32 → BitVec 32} {c d : BitVec 32} :
    (∀ b k, k < 4 → ¬(b = c ∧ r ≤ k ∧ k < r + w) →
      field (update config c d b) k 1 = field (config b) k 1) ↔
    ∀ k < 4, ¬(r ≤ k ∧ k < r + w) → field d k 1 = field (config c) k 1 := by
  constructor
  · intro h k hk hout
    have hbyte := h c k hk fun hin => hout hin.2
    rwa [update_self] at hbyte
  · intro h b k hk hout
    by_cases hb : b = c
    · subst hb
      rw [update_self]
      exact h k hk fun hin => hout ⟨rfl, hin⟩
    · rw [update_of_ne hb]

/-- The dwords and values for which the write path is right. -/
def Fits (d : BitVec 32) (r w value : ℕ) : Prop :=
  if w = 4 then value % 2 ^ 32 = 0
  else if r = 0 then field d 2 1 = 0 ∧ field d 3 1 = 0
  else if r = 1 then field d 0 1 = value % 2 ^ 8 ∧ field d 1 1 = value % 2 ^ 8 ∧
    field d 2 1 = 0 ∧ field d 3 1 = 0
  else value % 2 ^ (8 * w) = 0 ∧ field d 0 1 = 0 ∧ field d 1 1 = 0 ∧
    (w = 1 → field d 3 1 = 0) ∧ (r = 3 → field d 2 1 = 0)

theorem consistent_iff_dword (h : Aligned offset byteWidth) :
    Consistent s a offset byteWidth value old ↔
      let d := s.config (configAddress a.location (offset.setWidth 8))
      let r := offset.toNat % 4
      let w := byteWidth.toNat
      let n := written d.toNat r w value.toNat
      d.toNat / 2 ^ (16 * (r / 2)) % 2 ^ (8 * w) = field d r w ∧
      n / 2 ^ (16 * (r / 2)) % 2 ^ (8 * w) = value.toNat % 2 ^ (8 * w) ∧
      ∀ k < 4, ¬(r ≤ k ∧ k < r + w) → n / 2 ^ (8 * k) % 2 ^ (8 * 1) = field d k 1 := by
  obtain ⟨d, hconfig, hd⟩ := pciWrite_config h s a value
  have hafter : (uacpiKernelPciRead (uacpiKernelPciWrite s a offset byteWidth value) a offset
      byteWidth old).1.toNat = d.toNat / 2 ^ (16 * (offset.toNat % 4 / 2)) %
        2 ^ (8 * byteWidth.toNat) := by
    rw [pciRead_toNat h, hconfig, update_self]
  dsimp only
  rw [← hd]
  constructor
  · rintro ⟨hread, hround, hframe⟩
    rw [hconfig, frame_update] at hframe
    exact ⟨(pciRead_toNat h s a old).symm.trans hread, hafter.symm.trans hround, hframe⟩
  · rintro ⟨hread, hround, hframe⟩
    refine ⟨(pciRead_toNat h s a old).trans hread, hafter.trans hround, ?_⟩
    rw [hconfig]
    exact frame_update.mpr hframe

theorem forall_lt_four {p : ℕ → Prop} : (∀ k < 4, p k) ↔ p 0 ∧ p 1 ∧ p 2 ∧ p 3 := by
  constructor
  · intro h
    exact ⟨h 0 (by decide), h 1 (by decide), h 2 (by decide), h 3 (by decide)⟩
  · rintro ⟨h0, h1, h2, h3⟩ k hk
    interval_cases k <;> assumption

theorem written_byte_low (d v : ℕ) (hr : r < 2) :
    written d r 1 v = 256 * (d / 256 % 256) + v % 256 := by
  rw [written, if_pos rfl, show r / 2 = 0 by omega]
  omega

theorem written_high (d v : ℕ) (hr : r = 2 ∨ r = 3) : written d r w v = 0 := by
  have hhalf : r / 2 = 1 := by omega
  unfold written
  rw [hhalf]
  split
  · exact div_eq_of_lt (by omega)
  · split
    · exact div_eq_of_lt (mod_lt _ (by decide))
    · rfl

theorem fits_iff (d : BitVec 32) (v : ℕ) (hr : r < 4) (hw : w = 1 ∨ w = 2 ∨ w = 4)
    (haligned : r % w = 0) : (d.toNat / 2 ^ (16 * (r / 2)) % 2 ^ (8 * w) = field d r w ∧
      written d.toNat r w v / 2 ^ (16 * (r / 2)) % 2 ^ (8 * w) = v % 2 ^ (8 * w) ∧
      ∀ k < 4, ¬(r ≤ k ∧ k < r + w) →
        written d.toNat r w v / 2 ^ (8 * k) % 2 ^ (8 * 1) = field d k 1) ↔ Fits d r w v := by
  rw [forall_lt_four]
  obtain rfl | rfl | rfl := hw
  · obtain hlow | hhigh : r < 2 ∨ (r = 2 ∨ r = 3) := by omega
    · rw [written_byte_low d.toNat v hlow]
      -- the bytes of the dword that is written
      obtain ⟨n, hn, hn0, hn1, hn2, hn3⟩ : ∃ n, n = 256 * (d.toNat / 256 % 256) + v % 256 ∧
          n % 256 = v % 256 ∧ n / 256 % 256 = d.toNat / 256 % 256 ∧ n / 65536 % 256 = 0 ∧
          n / 16777216 % 256 = 0 := ⟨_, rfl, by omega, by omega, by omega, by omega⟩
      rw [← hn]
      obtain rfl | rfl : r = 0 ∨ r = 1 := by omega
      all_goals
        norm_num [Fits, field]
        omega
    · rw [written_high d.toNat v hhigh]
      obtain rfl | rfl := hhigh
      all_goals
        norm_num [Fits, field]
        omega
  · obtain rfl | rfl : r = 0 ∨ r = 2 := by omega
    all_goals
      norm_num [written, Fits, field]
      omega
  · obtain rfl : r = 0 := by omega
    norm_num [written, Fits, field]
    omega

/-- Configuration accesses are consistent exactly for the dwords and values that `Fits` lists. -/
theorem pci_config_consistent_iff (h : Aligned offset byteWidth) :
    Consistent s a offset byteWidth value old ↔
      Fits (s.config (configAddress a.location (offset.setWidth 8))) (offset.toNat % 4)
        byteWidth.toNat value.toNat := by
  rw [consistent_iff_dword h]
  have hwidth : byteWidth.toNat = 1 ∨ byteWidth.toNat = 2 ∨ byteWidth.toNat = 4 := by
    obtain rfl | rfl | rfl := h.width <;> decide
  have haligned := h.aligned
  refine fits_iff _ _ (mod_lt _ (by decide)) hwidth ?_
  obtain hw | hw | hw := hwidth <;> rw [hw] at haligned ⊢ <;> omega

end Hooks

/-- The command register of a function whose status register holds something. -/
theorem pci_config_consistent_iff_command : Aligned 4 2 ∧
    (Consistent ⟨0, fun _ => 0x02100000⟩ ⟨0, 0, 3, 0⟩ 4 2 7 0 ↔ Fits 0x02100000 0 2 7) :=
  ⟨⟨by decide, by decide, by decide⟩, pci_config_consistent_iff ⟨by decide, by decide, by decide⟩⟩

/-- A base address that is written as a dword reads back as zero. -/
theorem pci_dword_write_lost :
    ¬Consistent ⟨0, fun _ => 0⟩ ⟨0, 0, 3, 0⟩ 0x10 4 0xFEBF0000 0 := by
  intro h
  have hread := h.roundTrip
  revert hread
  decide

end GarnOS.Pci
