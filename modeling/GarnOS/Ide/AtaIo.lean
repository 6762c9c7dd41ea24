import GarnOS.Mem.Memutil

/-! Programmed transfers with an ATA drive on an IDE channel. The drive answers each register read
with a value of its own choice, and every register write is recorded. -/
namespace GarnOS.Ide

/-- The registers that a transfer writes. The high-order ones are the second of two bytes behind
one port. -/
inductive Reg
  | seccount0 | lba0 | lba1 | lba2 | hddevsel | command | seccount1 | lba3 | lba4 | lba5
  deriving DecidableEq, Repr

def ATA_SR_BSY : BitVec 8 := 0x80
def ATA_CMD_READ_PIO : BitVec 8 := 0x20
def ATA_CMD_READ_PIO_EXT : BitVec 8 := 0x24
def ATA_CMD_WRITE_PIO : BitVec 8 := 0x30
def ATA_CMD_WRITE_PIO_EXT : BitVec 8 := 0x34
def ATA_CMD_CACHE_FLUSH : BitVec 8 := 0xE7
def ATA_CMD_CACHE_FLUSH_EXT : BitVec 8 := 0xEA

structure IdeDrive where
  masterSlave : BitVec 8
  capabilities : BitVec 32

/-- The locals of both functions. They start with what is on the stack. -/
structure Locals where
  lbaMode : BitVec 8
  lbaIo : Fin 6 → BitVec 8
  cyl : BitVec 16
  head : BitVec 8
  sect : BitVec 8

def setAddress (d : IdeDrive) (startLBA : BitVec 64) (l : Locals) : Locals :=
  if startLBA ≥ 0x100000 then
    { l with
      lbaMode := 2
      lbaIo := ![startLBA.setWidth 8, (startLBA >>> 8).setWidth 8, (startLBA >>> 16).setWidth 8,
        (startLBA >>> 24).setWidth 8, (startLBA >>> 32).setWidth 8, (startLBA >>> 40).setWidth 8] }
  else if d.capabilities.getLsbD 9 then
    { l with
      lbaMode := 1
      lbaIo := ![startLBA.setWidth 8, (startLBA >>> 8).setWidth 8, (startLBA >>> 16).setWidth 8, 0, 0, 0]
      head := ((startLBA &&& 0xF000000) >>> 24).setWidth 8 }
  else
    let sect : BitVec 8 := (startLBA % 63 + 1).setWidth 8
    let cyl : BitVec 16 := ((startLBA + 1 - sect.setWidth 64) / (16 * 63)).setWidth 16
    { l with
      lbaMode := 0
      sect := sect
      cyl := cyl
      lbaIo := ![sect, cyl.setWidth 8, (cyl >>> 8).setWidth 8, 0, 0, 0]
      head := ((startLBA + 1 - sect.setWidth 64) % (16 * 63) / 63).setWidth 8 }

def deviceByte (d : IdeDrive) (l : Locals) : BitVec 8 :=
  (if l.lbaMode = 0 then 0xA0#8 else 0xE0) ||| (d.masterSlave <<< 4) ||| l.head

/-- The register writes of a command, in order; `pio` and `pioExt` are its opcodes for 28-bit and
48-bit addresses. -/
def commandWrites (d : IdeDrive) (pio pioExt : BitVec 8) (blocks : BitVec 64) (l : Locals) :
    List (Reg × BitVec 8) :=
  [(.hddevsel, deviceByte d l)] ++
  (if l.lbaMode = 2 then
    [(.seccount1, (blocks >>> 8).setWidth 8), (.lba3, l.lbaIo 3), (.lba4, l.lbaIo 4),
      (.lba5, l.lbaIo 5)]
  else []) ++
  [(.seccount0, blocks.setWidth 8), (.lba0, l.lbaIo 0), (.lba1, l.lbaIo 1), (.lba2, l.lbaIo 2),
    (.command, if l.lbaMode = 2 then pioExt else pio)]

/-- A channel: the number of register reads so far, the register writes, and the words that went
through the data register in each direction. -/
structure Channel where
  reads : ℕ
  writes : List (Reg × BitVec 8)
  received : ℕ
  sent : List (BitVec 16)

def Channel.empty : Channel := ⟨0, [], 0, []⟩

/-- `while(ide_read_reg(channel, ATA_REG_STATUS) & bit);` where `false` means that the loop still
runs. -/
def waitClear (vals : ℕ → BitVec 8) (bit : BitVec 8) : ℕ → Channel → Bool × Channel
  | 0, c => (false, c)
  | fuel + 1, c =>
    let next := { c with reads := c.reads + 1 }
    if vals c.reads &&& bit = 0 then (true, next) else waitClear vals bit fuel next

/-- The error register is returned whether or not errors are to be checked. -/
def idePoll (vals : ℕ → BitVec 8) (fuel : ℕ) (checkErrors : Bool) (c : Channel) :
    Option (BitVec 8) × Channel :=
  let w := waitClear vals ATA_SR_BSY fuel c
  if w.1 then
    (some (vals w.2.reads), { w.2 with reads := w.2.reads + if checkErrors then 2 else 1 })
  else (none, w.2)

/-- The loop over the `n` sectors from `i` on that remain to be read. -/
def readSectors (vals : ℕ → BitVec 8) (data : ℕ → BitVec 16) (fuel : ℕ) :
    ℕ → ℕ → (ℕ → BitVec 16) → Channel → Option ℤ × (ℕ → BitVec 16) × Channel
  | 0, _, buf, c => (some 0, buf, c)
  | n + 1, i, buf, c =>
    match idePoll vals fuel true c with
    | (none, c) => (none, buf, c)
    | (some err, c) =>
      if err ≠ 0 then (some (-1), buf, c)
      else
        let buf := fun k =>
          if 256 * i ≤ k ∧ k < 256 * (i + 1) then data (c.received + (k - 256 * i)) else buf k
        readSectors vals data fuel n (i + 1) buf { c with received := c.received + 256 }

/-- The loop over the `n` sectors from `i` on that remain to be written. -/
def writeSectors (vals : ℕ → BitVec 8) (fuel : ℕ) (buf : ℕ → BitVec 16) :
    ℕ → ℕ → Channel → Bool × Channel
  | 0, _, c => (true, c)
  | n + 1, i, c =>
    match idePoll vals fuel false c with
    | (none, c) => (false, c)
    | (some _, c) =>
      let sector := (List.range 256).map fun j => buf (j + 256 * i)
      writeSectors vals fuel buf n (i + 1) { c with sent := c.sent ++ sector }

def ideAtaRead (vals : ℕ → BitVec 8) (data : ℕ → BitVec 16) (fuel : ℕ) (d : IdeDrive)
    (startLBA blocks : BitVec 64) (buf : ℕ → BitVec 16) (l : Locals) (c : Channel) :
    Option ℤ × (ℕ → BitVec 16) × Channel :=
  let l := setAddress d startLBA l
  let w := waitClear vals ATA_SR_BSY fuel c
  if w.1 then
    let writes := commandWrites d ATA_CMD_READ_PIO ATA_CMD_READ_PIO_EXT blocks l
    readSectors vals data fuel blocks.toNat 0 buf { w.2 with writes := w.2.writes ++ writes }
  else (none, buf, w.2)

def ideAtaWrite (vals : ℕ → BitVec 8) (fuel : ℕ) (d : IdeDrive) (startLBA blocks : BitVec 64)
    (buf : ℕ → BitVec 16) (l : Locals) (c : Channel) : Option ℤ × Channel :=
  let l := setAddress d startLBA l
  let w := waitClear vals ATA_SR_BSY fuel c
  if w.1 then
    let writes := commandWrites d ATA_CMD_WRITE_PIO ATA_CMD_WRITE_PIO_EXT blocks l
    let s := writeSectors vals fuel buf blocks.toNat 0 { w.2 with writes := w.2.writes ++ writes }
    if s.1 then
      let flush := if l.lbaMode = 2 then ATA_CMD_CACHE_FLUSH_EXT else ATA_CMD_CACHE_FLUSH
      let p := idePoll vals fuel false { s.2 with writes := s.2.writes ++ [(.command, flush)] }
      (p.1.map fun _ => 0, p.2)
    else (none, s.2)
  else (none, w.2)

structure Target where
  lba : ℕ
  slave : Bool
  deriving DecidableEq, Repr

def latest (ws : List (Reg × BitVec 8)) (r : Reg) : Option (BitVec 8) :=
  (ws.reverse.find? fun w => w.1 = r).map Prod.snd

/-- What the first command of a sequence of register writes addresses. Bit 6 of the device register
tells block addresses from cylinders, heads and sectors. -/
def target (ws : List (Reg × BitVec 8)) : Option Target := do
  let ready := ws.takeWhile fun w => w.1 ≠ .command
  let command ← (ws.find? fun w => w.1 = .command).map Prod.snd
  let device ← latest ready .hddevsel
  let lba0 ← latest ready .lba0
  let lba1 ← latest ready .lba1
  let lba2 ← latest ready .lba2
  let low := lba0.toNat + 2 ^ 8 * lba1.toNat + 2 ^ 16 * lba2.toNat
  if command = ATA_CMD_READ_PIO ∨ command = ATA_CMD_WRITE_PIO then
    if device.getLsbD 6 then
      return ⟨low + 2 ^ 24 * (device.toNat % 16), device.getLsbD 4⟩
    else
      let cyl := lba1.toNat + 2 ^ 8 * lba2.toNat
      return ⟨(cyl * 16 + device.toNat % 16) * 63 + lba0.toNat - 1, device.getLsbD 4⟩
  else if (command = ATA_CMD_READ_PIO_EXT ∨ command = ATA_CMD_WRITE_PIO_EXT) ∧ device.getLsbD 6 then
    let lba3 ← latest ready .lba3
    let lba4 ← latest ready .lba4
    let lba5 ← latest ready .lba5
    let high := lba3.toNat + 2 ^ 8 * lba4.toNat + 2 ^ 16 * lba5.toNat
    return ⟨low + 2 ^ 24 * high, device.getLsbD 4⟩
  else none

section Writes
variable {vals : ℕ → BitVec 8} {data : ℕ → BitVec 16} {fuel : ℕ} {d : IdeDrive}
  {startLBA blocks : BitVec 64} {buf : ℕ → BitVec 16} {l : Locals} {c : Channel}

theorem waitClear_writes (vals : ℕ → BitVec 8) (bit : BitVec 8) (fuel : ℕ) (c : Channel) :
    (waitClear vals bit fuel c).2.writes = c.writes := by
  induction fuel generalizing c with
  | zero => rfl
  | succ fuel ih =>
    unfold waitClear
    split
    · rfl
    · exact ih _

theorem idePoll_writes (vals : ℕ → BitVec 8) (fuel : ℕ) (checkErrors : Bool) (c : Channel) :
    (idePoll vals fuel checkErrors c).2.writes = c.writes := by
  unfold idePoll
  dsimp only
  split
  all_goals exact waitClear_writes vals ATA_SR_BSY fuel c

theorem readSectors_writes (n i : ℕ) (buf : ℕ → BitVec 16) (c : Channel) :
    (readSectors vals data fuel n i buf c).2.2.writes = c.writes := by
  induction n generalizing i buf c with
  | zero => rfl
  | succ n ih =>
    have hpoll := idePoll_writes vals fuel true c
    unfold readSectors
    split
    · rename_i c' heq
      rwa [heq] at hpoll
    · rename_i err c' heq
      rw [heq] at hpoll
      split
      · exact hpoll
      · exact (ih _ _ _).trans hpoll

theorem writeSectors_writes (n i : ℕ) (c : Channel) :
    (writeSectors vals fuel buf n i c).2.writes = c.writes := by
  induction n generalizing i c with
  | zero => rfl
  | succ n ih =>
    have hpoll := idePoll_writes vals fuel false c
    unfold writeSectors
    split
    · rename_i c' heq
      rwa [heq] at hpoll
    · rename_i err c' heq
      rw [heq] at hpoll
      exact (ih _ _).trans hpoll

theorem ideAtaRead_writes
    (h : (ideAtaRead vals data fuel d startLBA blocks buf l .empty).2.2.writes ≠ []) :
    (ideAtaRead vals data fuel d startLBA blocks buf l .empty).2.2.writes =
      commandWrites d ATA_CMD_READ_PIO ATA_CMD_READ_PIO_EXT blocks (setAddress d startLBA l) := by
  have hwait := waitClear_writes vals ATA_SR_BSY fuel .empty
  unfold ideAtaRead at h ⊢
  dsimp only at h ⊢
  split
  · rw [readSectors_writes, hwait]
    rfl
  · rename_i hbusy
    rw [if_neg hbusy] at h
    exact absurd hwait h

theorem ideAtaWrite_writes
    (h : (ideAtaWrite vals fuel d startLBA blocks buf l .empty).2.writes ≠ []) :
    ∃ rest, (ideAtaWrite vals fuel d startLBA blocks buf l .empty).2.writes =
      commandWrites d ATA_CMD_WRITE_PIO ATA_CMD_WRITE_PIO_EXT blocks (setAddress d startLBA l) ++
        rest := by
  have hwait := waitClear_writes vals ATA_SR_BSY fuel .empty
  unfold ideAtaWrite at h ⊢
  dsimp only at h ⊢
  split
  · split
    · refine ⟨[(.command, if (setAddress d startLBA l).lbaMode = 2 then ATA_CMD_CACHE_FLUSH_EXT
        else ATA_CMD_CACHE_FLUSH)], ?_⟩
      rw [idePoll_writes]
      rw [writeSectors_writes, hwait]
      rfl
    · refine ⟨[], ?_⟩
      rw [writeSectors_writes, hwait, List.append_nil]
      rfl
  · rename_i hbusy
    rw [if_neg hbusy] at h
    exact absurd hwait h

end Writes
section Target
variable {d : IdeDrive} {pio pioExt : BitVec 8} {startLBA blocks : BitVec 64} {l : Locals}
  {rest : List (Reg × BitVec 8)}

theorem target_block48 (hmode : l.lbaMode = 2)
    (hext : pioExt = ATA_CMD_READ_PIO_EXT ∨ pioExt = ATA_CMD_WRITE_PIO_EXT)
    (hblock : (deviceByte d l).getLsbD 6 = true) :
    target (commandWrites d pio pioExt blocks l ++ rest) =
      some ⟨(l.lbaIo 0).toNat + 2 ^ 8 * (l.lbaIo 1).toNat + 2 ^ 16 * (l.lbaIo 2).toNat + 2 ^ 24 *
        ((l.lbaIo 3).toNat + 2 ^ 8 * (l.lbaIo 4).toNat + 2 ^ 16 * (l.lbaIo 5).toNat),
        (deviceByte d l).getLsbD 4⟩ := by
  have hpio : ¬(pioExt = ATA_CMD_READ_PIO ∨ pioExt = ATA_CMD_WRITE_PIO) := by
    rcases hext with rfl | rfl
    · decide
    · decide
  simp only [commandWrites, if_pos hmode, List.cons_append, List.nil_append]
  exact (if_neg hpio).trans (if_pos ⟨hext, hblock⟩)

theorem masterSlave_cases (hd : d.masterSlave.toNat < 2) :
    d.masterSlave = 0 ∨ d.masterSlave = 1 := by
  obtain h | h : d.masterSlave.toNat = 0 ∨ d.masterSlave.toNat = 1 := by omega
  · exact .inl (BitVec.eq_of_toNat_eq h)
  · exact .inr (BitVec.eq_of_toNat_eq h)

theorem deviceByte_slave (hd : d.masterSlave.toNat < 2) (l : Locals) :
    (deviceByte d l).getLsbD 4 = (decide (d.masterSlave = 1) || l.head.getLsbD 4) := by
  unfold deviceByte
  rcases masterSlave_cases hd with h | h
  all_goals
    rw [h]
    split <;> simp

theorem deviceByte_block (hmode : l.lbaMode ≠ 0) : (deviceByte d l).getLsbD 6 = true := by
  unfold deviceByte
  rw [if_neg hmode]
  simp

theorem deviceByte_head (hd : d.masterSlave.toNat < 2) (hhead : l.head.toNat < 16) :
    (deviceByte d l).toNat % 16 = l.head.toNat ∧
    ((deviceByte d l).getLsbD 6 = true ↔ l.lbaMode ≠ 0) ∧ l.head.getLsbD 4 = false := by
  have hlow : ∀ h : Fin 16, ∀ base ∈ [0xA0, 0xE0], ∀ m ∈ [(0 : BitVec 8), 1],
      (base ||| (m <<< 4) ||| BitVec.ofNat 8 h.val).toNat % 16 = h.val ∧
      ((base ||| (m <<< 4) ||| BitVec.ofNat 8 h.val).getLsbD 6 = true ↔ base = 0xE0) ∧
      (BitVec.ofNat 8 h.val).getLsbD 4 = false := by decide
  have hms : d.masterSlave ∈ [(0 : BitVec 8), 1] := by
    rcases masterSlave_cases hd with h | h
    all_goals simp [h]
  have hhead' : BitVec.ofNat 8 l.head.toNat = l.head := by simp
  have hbase : (if l.lbaMode = 0 then 0xA0 else 0xE0) ∈ [(0xA0 : BitVec 8), 0xE0] := by
    split <;> simp
  have hbits := hlow ⟨l.head.toNat, hhead⟩ _ hbase d.masterSlave hms
  rw [hhead'] at hbits
  unfold deviceByte
  refine ⟨hbits.1, hbits.2.1.trans ?_, hbits.2.2⟩
  by_cases hmode : l.lbaMode = 0
  all_goals simp [hmode]

theorem target_large (h : 0x100000 ≤ startLBA.toNat) (hlba : startLBA.toNat < 2 ^ 48)
    (hext : pioExt = ATA_CMD_READ_PIO_EXT ∨ pioExt = ATA_CMD_WRITE_PIO_EXT)
    (hd : d.masterSlave.toNat < 2) :
    target (commandWrites d pio pioExt blocks (setAddress d startLBA l) ++ rest) =
      some ⟨startLBA.toNat, decide (d.masterSlave = 1) || l.head.getLsbD 4⟩ := by
  have hbranch : startLBA ≥ 0x100000 := h
  have hmode : (2 : BitVec 8) ≠ 0 := by decide
  unfold setAddress
  rw [if_pos hbranch, target_block48 rfl hext (deviceByte_block hmode), deviceByte_slave hd]
  congr 2
  simp [Nat.shiftRight_eq_div_pow]
  omega

section
variable (hpio : pio = ATA_CMD_READ_PIO ∨ pio = ATA_CMD_WRITE_PIO) (hd : d.masterSlave.toNat < 2)
include hpio hd

theorem target_small (hmode : l.lbaMode ≠ 2) (hhead : l.head.toNat < 16) :
    target (commandWrites d pio pioExt blocks l ++ rest) = some
      ⟨if l.lbaMode ≠ 0 then
        (l.lbaIo 0).toNat + 2 ^ 8 * (l.lbaIo 1).toNat + 2 ^ 16 * (l.lbaIo 2).toNat +
          2 ^ 24 * l.head.toNat
      else (((l.lbaIo 1).toNat + 2 ^ 8 * (l.lbaIo 2).toNat) * 16 + l.head.toNat) * 63 +
        (l.lbaIo 0).toNat - 1, decide (d.masterSlave = 1)⟩ := by
  obtain ⟨hlow, hblock, hbit⟩ := deviceByte_head (l := l) hd hhead
  have hslave := deviceByte_slave hd l
  rw [hbit, Bool.or_false] at hslave
  rw [← hlow, ← hslave]
  simp only [commandWrites, if_neg hmode, List.cons_append, List.nil_append]
  refine (if_pos hpio).trans ?_
  by_cases h : l.lbaMode = 0
  · exact (if_neg (mt hblock.mp (not_not.mpr h))).trans (by rw [if_neg (not_not.mpr h)]; rfl)
  · exact (if_pos (hblock.mpr h)).trans (by rw [if_pos h]; rfl)

theorem target_block28 (h : startLBA.toNat < 0x100000) (hcap : d.capabilities.getLsbD 9 = true) :
    target (commandWrites d pio pioExt blocks (setAddress d startLBA l) ++ rest) =
      some ⟨startLBA.toNat, decide (d.masterSlave = 1)⟩ := by
  have hbranch : ¬startLBA ≥ 0x100000 := Nat.not_le.mpr h
  have hhead : ((startLBA &&& 0xF000000) >>> 24).setWidth 8 = (0 : BitVec 8) := by
    have hle : (startLBA &&& 0xF000000).toNat ≤ startLBA.toNat := by
      rw [BitVec.toNat_and]
      exact Nat.and_le_left
    apply BitVec.eq_of_toNat_eq
    rw [BitVec.toNat_setWidth, BitVec.toNat_ushiftRight, Nat.shiftRight_eq_div_pow]
    change _ = 0
    omega
  have haddress : setAddress d startLBA l = { l with
      lbaMode := 1
      lbaIo := ![startLBA.setWidth 8, (startLBA >>> 8).setWidth 8, (startLBA >>> 16).setWidth 8, 0, 0, 0]
      head := 0 } := by
    unfold setAddress
    rw [if_neg hbranch, if_pos hcap, hhead]
  have hmode : (1 : BitVec 8) ≠ 2 := by decide
  have hzero : (0 : BitVec 8).toNat < 16 := by decide
  rw [haddress, target_small hpio hd hmode hzero]
  congr 2
  simp [Nat.shiftRight_eq_div_pow]
  omega

theorem target_chs (h : startLBA.toNat < 0x100000) (hcap : ¬d.capabilities.getLsbD 9 = true) :
    target (commandWrites d pio pioExt blocks (setAddress d startLBA l) ++ rest) =
      some ⟨startLBA.toNat, decide (d.masterSlave = 1)⟩ := by
  have hbranch : ¬startLBA ≥ 0x100000 := Nat.not_le.mpr h
  have hsect : ((startLBA % 63 + 1).setWidth 8).toNat = startLBA.toNat % 63 + 1 := by
    simp
    omega
  have htrack : (startLBA + 1 - ((startLBA % 63 + 1).setWidth 8).setWidth 64).toNat =
      63 * (startLBA.toNat / 63) := by
    rw [BitVec.toNat_sub, BitVec.toNat_setWidth, hsect, BitVec.toNat_add]
    change (2 ^ 64 - (startLBA.toNat % 63 + 1) % 2 ^ 64 + (startLBA.toNat + 1) % 2 ^ 64) % 2 ^ 64 = _
    omega
  generalize hs : ((startLBA % 63 + 1).setWidth 8 : BitVec 8) = sect at *
  generalize ht : startLBA + 1 - sect.setWidth 64 = track at *
  have hcyl : ((track / (16 * 63)).setWidth 16).toNat = startLBA.toNat / 63 / 16 := by
    rw [BitVec.toNat_setWidth, BitVec.toNat_udiv, htrack]
    change 63 * (startLBA.toNat / 63) / 1008 % 2 ^ 16 = _
    omega
  generalize hc : (track / (16 * 63)).setWidth 16 = cyl at *
  have hhead : ((track % (16 * 63) / 63).setWidth 8).toNat = startLBA.toNat / 63 % 16 := by
    rw [BitVec.toNat_setWidth, BitVec.toNat_udiv, BitVec.toNat_umod, htrack]
    change 63 * (startLBA.toNat / 63) % 1008 / 63 % 2 ^ 8 = _
    omega
  have haddress : setAddress d startLBA l = { l with
      lbaMode := 0
      sect := sect
      cyl := cyl
      lbaIo := ![sect, cyl.setWidth 8, (cyl >>> 8).setWidth 8, 0, 0, 0]
      head := (track % (16 * 63) / 63).setWidth 8 } := by
    unfold setAddress
    rw [if_neg hbranch, if_neg hcap]
    simp only [hs, ht, hc]
  have hmode : (0 : BitVec 8) ≠ 2 := by decide
  rw [haddress, target_small hpio hd hmode (by rw [hhead]; omega)]
  dsimp only
  rw [if_neg (by decide), hhead]
  congr 2
  change (((cyl.setWidth 8).toNat + 2 ^ 8 * ((cyl >>> 8).setWidth 8).toNat) * 16 + _) * 63 +
    sect.toNat - 1 = _
  rw [BitVec.toNat_setWidth 8, BitVec.toNat_setWidth 8, BitVec.toNat_ushiftRight, hcyl, hsect,
    Nat.shiftRight_eq_div_pow]
  omega

end

/-- A command addresses the sector and the drive unless a 48-bit one takes bit 4 of an unset head
for the drive. -/
theorem target_exact (hlba : startLBA.toNat < 2 ^ 48) (hd : d.masterSlave.toNat < 2)
    (hpio : pio = ATA_CMD_READ_PIO ∨ pio = ATA_CMD_WRITE_PIO)
    (hext : pioExt = ATA_CMD_READ_PIO_EXT ∨ pioExt = ATA_CMD_WRITE_PIO_EXT) :
    target (commandWrites d pio pioExt blocks (setAddress d startLBA l) ++ rest) =
      some ⟨startLBA.toNat, decide (d.masterSlave = 1)⟩ ↔
    startLBA.toNat < 0x100000 ∨ l.head.getLsbD 4 = false ∨ d.masterSlave = 1 := by
  by_cases h : startLBA.toNat < 0x100000
  · have hexact : target (commandWrites d pio pioExt blocks (setAddress d startLBA l) ++ rest) =
        some ⟨startLBA.toNat, decide (d.masterSlave = 1)⟩ := by
      by_cases hcap : d.capabilities.getLsbD 9 = true
      · exact target_block28 hpio hd h hcap
      · exact target_chs hpio hd h hcap
    exact ⟨fun _ => .inl h, fun _ => hexact⟩
  · rw [target_large (Nat.not_lt.mp h) hlba hext hd, Option.some.injEq, Target.mk.injEq]
    simp only [true_and, h, false_or]
    by_cases hslave : d.masterSlave = 1
    · simp [hslave]
    · simp only [hslave, decide_false, Bool.false_or, or_false]

end Target

/-- The registers that a read and a write set address the sector and the drive exactly when the
address is below 0x100000, the unset local `head` has bit 4 clear, or the drive is the slave. -/
theorem ide_addressing_iff (vals : ℕ → BitVec 8) (data : ℕ → BitVec 16) (fuel : ℕ) (d : IdeDrive)
    (startLBA blocks : BitVec 64) (buf : ℕ → BitVec 16) (l : Locals)
    (hd : d.masterSlave.toNat < 2) (hlba : startLBA.toNat < 2 ^ 48) :
    ((ideAtaRead vals data fuel d startLBA blocks buf l .empty).2.2.writes ≠ [] →
      (target (ideAtaRead vals data fuel d startLBA blocks buf l .empty).2.2.writes =
          some ⟨startLBA.toNat, decide (d.masterSlave = 1)⟩ ↔
        startLBA.toNat < 0x100000 ∨ l.head.getLsbD 4 = false ∨ d.masterSlave = 1)) ∧
    ((ideAtaWrite vals fuel d startLBA blocks buf l .empty).2.writes ≠ [] →
      (target (ideAtaWrite vals fuel d startLBA blocks buf l .empty).2.writes =
          some ⟨startLBA.toNat, decide (d.masterSlave = 1)⟩ ↔
        startLBA.toNat < 0x100000 ∨ l.head.getLsbD 4 = false ∨ d.masterSlave = 1)) := by
  constructor
  · intro h
    rw [ideAtaRead_writes h, ← List.append_nil (commandWrites _ _ _ _ _)]
    exact target_exact hlba hd (.inl rfl) (.inl rfl)
  · intro h
    obtain ⟨rest, hrest⟩ := ideAtaWrite_writes h
    rw [hrest]
    exact target_exact hlba hd (.inr rfl) (.inr rfl)

/-- A master drive with block addresses, and a stack on which `head` has bit 4 set. -/
def testMaster : IdeDrive := ⟨0, 0x200⟩

def testLocals : Locals := ⟨0, fun _ => 0, 0, 0x10, 0⟩

theorem ide_addressing_iff_low :
    (target (ideAtaRead (fun _ => 0) (fun _ => 0) 1 testMaster 0xabcde 1 (fun _ => 0) testLocals
        .empty).2.2.writes = some ⟨0xabcde, decide (testMaster.masterSlave = 1)⟩ ↔
      0xabcde < 0x100000 ∨ testLocals.head.getLsbD 4 = false ∨ testMaster.masterSlave = 1) ∧
    (target (ideAtaWrite (fun _ => 0) 1 testMaster 0xabcde 1 (fun _ => 0) testLocals
        .empty).2.writes = some ⟨0xabcde, decide (testMaster.masterSlave = 1)⟩ ↔
      0xabcde < 0x100000 ∨ testLocals.head.getLsbD 4 = false ∨ testMaster.masterSlave = 1) :=
  have h := ide_addressing_iff (fun _ => 0) (fun _ => 0) 1 testMaster 0xabcde 1 (fun _ => 0)
    testLocals (by decide) (by decide)
  ⟨h.1 (by decide), h.2 (by decide)⟩

/-- The first sector beyond 512 MiB of a master drive is read from the slave. -/
theorem ide_read_selects_slave :
    target (ideAtaRead (fun _ => 0) (fun _ => 0) 1 testMaster 0x100000 1 (fun _ => 0) testLocals
      .empty).2.2.writes = some ⟨0x100000, true⟩ := by decide

end GarnOS.Ide
