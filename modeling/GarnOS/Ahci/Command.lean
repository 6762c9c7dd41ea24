import GarnOS.Ahci.AtaIo

/-! What the drive and the controller read from a command of the driver: the sectors that its FIS
names, and the memory that its descriptor table names. -/
namespace GarnOS.Ahci
open Outcome FirstFit List Nat

structure Transfer where
  write : Bool
  lba : ℕ
  count : ℕ
  deriving DecidableEq, Repr

def Fis.lbaLow (f : Fis) : ℕ := f.lba0.toNat + 2 ^ 8 * f.lba1.toNat + 2 ^ 16 * f.lba2.toNat

def Fis.lbaHigh (f : Fis) : ℕ := f.lba3.toNat + 2 ^ 8 * f.lba4.toNat + 2 ^ 16 * f.lba5.toNat

/-- A 28-bit command: the count has eight bits, and 0 stands for 256. -/
def Fis.transfer28 (f : Fis) (write : Bool) : Transfer where
  write := write
  lba := f.lbaLow + 2 ^ 24 * (f.device.toNat % 16)
  count := if f.countLow = 0 then 256 else f.countLow.toNat

/-- A 48-bit command: the count has sixteen bits, and 0 stands for 65536. -/
def Fis.transfer48 (f : Fis) (write : Bool) : Transfer where
  write := write
  lba := f.lbaLow + 2 ^ 24 * f.lbaHigh
  count :=
    let count := f.countLow.toNat + 2 ^ 8 * f.countHigh.toNat
    if count = 0 then 65536 else count

/-- Whether a command writes, and whether its addresses have 48 bits. -/
def ataOpcode (command : BitVec 8) : Option (Bool × Bool) :=
  if command = ATA_CMD_READ_DMA then some (false, false)
  else if command = ATA_CMD_WRITE_DMA then some (true, false)
  else if command = ATA_CMD_READ_DMA_EXT then some (false, true)
  else if command = ATA_CMD_WRITE_DMA_EXT then some (true, true)
  else none

/-- Bit 6 of the device register selects block addresses. -/
def Fis.transfer (f : Fis) : Option Transfer :=
  if f.fisType = FIS_TYPE_REG_H2D ∧ f.c = true ∧ f.device.getLsbD 6 = true then
    (ataOpcode f.command).map fun op => if op.2 then f.transfer48 op.1 else f.transfer28 op.1
  else none

section Fis
variable {d : Drive} {dmaExt dma : BitVec 8} {startLBA blocks : BitVec 64} {write : Bool}

theorem toNat_lowByte (x : BitVec 64) : ((x &&& 0xFF).setWidth 8).toNat = x.toNat % 256 := by
  rw [BitVec.toNat_setWidth, BitVec.toNat_and]
  change (x.toNat &&& (2 ^ 8 - 1)) % 2 ^ 8 = x.toNat % 256
  rw [and_two_pow_sub_one_eq_mod, mod_mod]

theorem cmdFis_count (d : Drive) (dmaExt dma : BitVec 8) (startLBA blocks : BitVec 64) :
    (cmdFis d dmaExt dma startLBA blocks).countLow.toNat = blocks.toNat % 256 ∧
    (cmdFis d dmaExt dma startLBA blocks).countHigh.toNat = blocks.toNat / 256 % 256 := by
  have hhigh : (((blocks >>> 8) &&& 0xFF).setWidth 8).toNat = blocks.toNat / 256 % 256 := by
    rw [toNat_lowByte, BitVec.toNat_ushiftRight, shiftRight_eq_div_pow]
  unfold cmdFis
  split
  · exact ⟨toNat_lowByte blocks, hhigh⟩
  · split
    all_goals exact ⟨toNat_lowByte blocks, hhigh⟩

theorem cmdFis_transfer48 (hlarge : 0x100000 ≤ startLBA.toNat) (hlba : startLBA.toNat < 2 ^ 48)
    (hpos : 1 ≤ blocks.toNat) (hle : blocks.toNat ≤ 0xFFFF) (write : Bool) :
    (cmdFis d dmaExt dma startLBA blocks).transfer48 write =
      ⟨write, startLBA.toNat, blocks.toNat⟩ := by
  have hbranch : startLBA ≥ 0x100000 := hlarge
  have hcount := cmdFis_count d dmaExt dma startLBA blocks
  have haddress : (cmdFis d dmaExt dma startLBA blocks).lbaLow +
      2 ^ 24 * (cmdFis d dmaExt dma startLBA blocks).lbaHigh = startLBA.toNat := by
    simp only [cmdFis, if_pos hbranch, Fis.lbaLow, Fis.lbaHigh, BitVec.toNat_setWidth,
      BitVec.toNat_ushiftRight, shiftRight_eq_div_pow]
    omega
  unfold Fis.transfer48
  rw [haddress, hcount.1, hcount.2]
  rw [if_neg (by omega)]
  congr 1
  omega

theorem cmdFis_transfer28 (hcap : d.capabilities.getLsbD 9 = true)
    (hsmall : startLBA.toNat < 0x100000) (hpos : 1 ≤ blocks.toNat) (write : Bool) :
    (cmdFis d dmaExt dma startLBA blocks).transfer28 write =
      ⟨write, startLBA.toNat, (blocks.toNat - 1) % 256 + 1⟩ := by
  have hbranch : ¬startLBA ≥ 0x100000 := not_le.mpr hsmall
  have hcount := (cmdFis_count d dmaExt dma startLBA blocks).1
  have haddress : (cmdFis d dmaExt dma startLBA blocks).lbaLow +
      2 ^ 24 * ((cmdFis d dmaExt dma startLBA blocks).device.toNat % 16) = startLBA.toNat := by
    simp only [cmdFis, if_neg hbranch, if_pos hcap, Fis.lbaLow, BitVec.toNat_setWidth,
      BitVec.toNat_ushiftRight, shiftRight_eq_div_pow]
    change _ + 2 ^ 24 * (0x40 % 16) = _
    omega
  have hzero : (cmdFis d dmaExt dma startLBA blocks).countLow = 0 ↔ blocks.toNat % 256 = 0 := by
    rw [← hcount]
    exact (BitVec.toNat_inj (y := (0 : BitVec 8))).symm
  unfold Fis.transfer28
  rw [haddress]
  congr 1
  by_cases h : blocks.toNat % 256 = 0
  · rw [if_pos (hzero.mpr h)]
    omega
  · rw [if_neg (mt hzero.mp h), hcount]
    omega

theorem cmdFis_command (hcap : d.capabilities.getLsbD 9 = true) (dmaExt dma : BitVec 8)
    (startLBA blocks : BitVec 64) :
    (cmdFis d dmaExt dma startLBA blocks).fisType = FIS_TYPE_REG_H2D ∧
    (cmdFis d dmaExt dma startLBA blocks).c = true ∧
    (cmdFis d dmaExt dma startLBA blocks).device = 0x40 ∧
    (cmdFis d dmaExt dma startLBA blocks).command =
      if 0x100000 ≤ startLBA.toNat then dmaExt else dma := by
  by_cases hlarge : 0x100000 ≤ startLBA.toNat
  · have hbranch : startLBA ≥ 0x100000 := hlarge
    unfold cmdFis
    rw [if_pos hbranch, if_pos hlarge]
    exact ⟨rfl, rfl, rfl, rfl⟩
  · have hbranch : ¬startLBA ≥ 0x100000 := hlarge
    unfold cmdFis
    rw [if_neg hbranch, if_pos hcap, if_neg hlarge]
    exact ⟨rfl, rfl, rfl, rfl⟩

variable (hext : ataOpcode dmaExt = some (write, true)) (hdma : ataOpcode dma = some (write, false))
  (hcap : d.capabilities.getLsbD 9 = true) (hlba : startLBA.toNat < 2 ^ 48)
  (hpos : 1 ≤ blocks.toNat) (hle : blocks.toNat ≤ 0xFFFF)
include hext hdma hcap hlba hpos hle

theorem cmdFis_transfer :
    (cmdFis d dmaExt dma startLBA blocks).transfer = some ⟨write, startLBA.toNat,
      if 0x100000 ≤ startLBA.toNat then blocks.toNat else (blocks.toNat - 1) % 256 + 1⟩ := by
  obtain ⟨htype, hc, hdevice, hcommand⟩ :=
    cmdFis_command hcap dmaExt dma startLBA blocks
  unfold Fis.transfer
  rw [if_pos ⟨htype, hc, by rw [hdevice]; decide⟩, hcommand]
  by_cases hlarge : 0x100000 ≤ startLBA.toNat
  · rw [if_pos hlarge, if_pos hlarge, hext, Option.map_some]
    exact congrArg some (cmdFis_transfer48 hlarge hlba hpos hle write)
  · rw [if_neg hlarge, if_neg hlarge, hdma, Option.map_some]
    exact congrArg some (cmdFis_transfer28 hcap (not_le.mp hlarge) hpos write)

/-- The command names the transfer unless a 28-bit command has to count beyond 256. -/
theorem cmdFis_exact : (cmdFis d dmaExt dma startLBA blocks).transfer =
      some ⟨write, startLBA.toNat, blocks.toNat⟩ ↔
    0x100000 ≤ startLBA.toNat ∨ blocks.toNat ≤ 256 := by
  rw [cmdFis_transfer hext hdma hcap hlba hpos hle, Option.some.injEq, Transfer.mk.injEq]
  simp only [true_and]
  split
  · omega
  · omega

end Fis

/-- The FIS of a read and the FIS of a write name the requested sectors exactly when the address
takes a 48-bit command or the count fits into eight bits. -/
theorem ata_fis_exact_iff (d : Drive) (startLBA blocks : BitVec 64) (base : ℕ)
    (hcap : d.capabilities.getLsbD 9 = true) (hlba : startLBA.toNat < 2 ^ 48)
    (hpos : 1 ≤ blocks.toNat) (hle : blocks.toNat ≤ 0xFFFF) :
    ((readCommand d startLBA blocks base).cfis.transfer =
        some ⟨false, startLBA.toNat, blocks.toNat⟩ ↔
      0x100000 ≤ startLBA.toNat ∨ blocks.toNat ≤ 256) ∧
    ((writeCommand d startLBA blocks base).cfis.transfer =
        some ⟨true, startLBA.toNat, blocks.toNat⟩ ↔
      0x100000 ≤ startLBA.toNat ∨ blocks.toNat ≤ 256) :=
  ⟨cmdFis_exact rfl rfl hcap hlba hpos hle, cmdFis_exact rfl rfl hcap hlba hpos hle⟩

theorem ata_fis_exact_iff_one :
    ((readCommand testDrive 3 1 4096).cfis.transfer = some ⟨false, 3, 1⟩ ↔
      0x100000 ≤ 3 ∨ 1 ≤ 256) ∧
    ((writeCommand testDrive 3 1 4096).cfis.transfer = some ⟨true, 3, 1⟩ ↔
      0x100000 ≤ 3 ∨ 1 ≤ 256) :=
  ata_fis_exact_iff testDrive 3 1 4096 rfl (by decide) (by decide) (by decide)

/-- A read of 257 sectors at sector 0 asks the drive for one sector. -/
theorem ata_fis_drops_count :
    (readCommand testDrive 0 257 4096).cfis.transfer = some ⟨false, 0, 1⟩ := by decide

/-- The bytes that an entry of the descriptor table names. -/
def Prd.bytes (e : Prd) : ℕ := e.dbc.toNat + 1

def Prd.address (e : Prd) : ℕ := e.dbau.toNat * 2 ^ 32 + e.dba.toNat

/-- The entries name one range of memory after the other, from `a` on. -/
def Consecutive : ℕ → List Prd → Prop
  | _, [] => True
  | a, e :: es => e.address = a ∧ Consecutive (a + e.bytes) es

def MAX_PRDS : ℕ := 248

/-- The part of the table that the controller reads. -/
def Command.prdt (cmd : Command) : List Prd := cmd.prdtEntries.take cmd.prdtLength.toNat

/-- The descriptor table names `n` bytes at `base`, inside of `npages` pages. -/
structure Scatters (cmd : Command) (base n npages : ℕ) : Prop where
  pos : 1 ≤ cmd.prdtLength.toNat
  le : cmd.prdtLength.toNat ≤ MAX_PRDS
  entries : cmd.prdt.length = cmd.prdtLength.toNat
  size : ∀ e ∈ cmd.prdt, e.bytes ≤ 4 * 2 ^ 20
  consecutive : Consecutive base cmd.prdt
  total : (cmd.prdt.map Prd.bytes).sum = n
  inside : ∀ e ∈ cmd.prdt, base ≤ e.address ∧ e.address + e.bytes ≤ base + npages * 4096

section Prdt
variable {d : Drive} {w : Bool} {dmaExt dma : BitVec 8} {startLBA blocks : BitVec 64} {base : ℕ}

section
variable (hpos : 1 ≤ blocks.toNat) (hle : blocks.toNat ≤ 0xFFFF)
include hpos hle

theorem prd_bytes (s64a : Bool) (a : BitVec 64) :
    (prd s64a a 0 ((blocks * 512 - 1).setWidth 22)).bytes =
      (512 * blocks.toNat - 1) % 2 ^ 22 + 1 := by
  rw [Prd.bytes, prd_dbc, BitVec.toNat_setWidth, BitVec.toNat_sub, transfer_bytes hle,
    show BitVec.toNat (1 : BitVec 64) = 1 from rfl]
  omega

theorem scatters_iff (hbase : base < 2 ^ 64) (h32 : d.s64a = false → base < 2 ^ 32) :
    Scatters (ataCommand d w dmaExt dma startLBA blocks base) base (512 * blocks.toNat)
      (blocks.toNat / 8 + 1) ↔ blocks.toNat ≤ 8192 := by
  have hlength : (ataCommand d w dmaExt dma startLBA blocks base).prdtLength = 1 :=
    prdtLength_eq hpos hle
  have hprdt : (ataCommand d w dmaExt dma startLBA blocks base).prdt =
      [prd d.s64a (BitVec.ofNat 64 base) 0 ((blocks * 512 - 1).setWidth 22)] :=
    ataCommand_prdt hpos hle
  have haddress : (prd d.s64a (BitVec.ofNat 64 base) 0
      ((blocks * 512 - 1).setWidth 22)).address = base := prd_address _ _ hbase h32
  have hbytes := prd_bytes hpos hle d.s64a (BitVec.ofNat 64 base)
  constructor
  · intro h
    have htotal := h.total
    rw [hprdt, map_singleton, sum_singleton, hbytes] at htotal
    omega
  · intro h
    constructor
    · rw [hlength]
      decide
    · rw [hlength]
      decide
    · rw [hprdt, hlength]
      rfl
    · rw [hprdt]
      intro e he
      rw [mem_singleton.mp he, hbytes]
      omega
    · rw [hprdt]
      exact ⟨haddress, trivial⟩
    · rw [hprdt, map_singleton, sum_singleton, hbytes]
      omega
    · rw [hprdt]
      intro e he
      rw [mem_singleton.mp he, haddress, hbytes]
      omega

end

theorem dmaAllocate_base {m m' : Machine} (hle : blocks.toNat ≤ 0xFFFF)
    (h : dmaAllocate d m (dmaPages blocks) = .ok (base, m')) :
    base < 2 ^ 64 ∧ (d.s64a = false → base < 2 ^ 32) := by
  rw [dmaPages_eq hle] at h
  obtain ⟨b, hb, halloc⟩ := (dmaAllocate_post d m (succ_pos _)).of_ok h
  have hfits := halloc.fits
  have hlt := m.pmm.pages_lt
  constructor
  · omega
  · intro hs
    have hlow := halloc.low hs
    omega

end Prdt

/-- The descriptor table of a read and that of a write name the whole transfer exactly when it has
at most 4 MiB. -/
theorem ata_prdt_covers_iff (d : Drive) (startLBA blocks : BitVec 64) {m m' : Machine} {base : ℕ}
    (hpos : 1 ≤ blocks.toNat) (hle : blocks.toNat ≤ 0xFFFF)
    (halloc : dmaAllocate d m (dmaPages blocks) = .ok (base, m')) :
    (Scatters (readCommand d startLBA blocks base) base (512 * blocks.toNat)
        (512 * blocks.toNat / 4096 + 1) ↔ blocks.toNat ≤ 0x2000) ∧
    (Scatters (writeCommand d startLBA blocks base) base (512 * blocks.toNat)
        (512 * blocks.toNat / 4096 + 1) ↔ blocks.toNat ≤ 0x2000) := by
  obtain ⟨hbase, h32⟩ := dmaAllocate_base hle halloc
  rw [show 512 * blocks.toNat / 4096 + 1 = blocks.toNat / 8 + 1 by omega]
  exact ⟨scatters_iff hpos hle hbase h32, scatters_iff hpos hle hbase h32⟩

theorem ata_prdt_covers_iff_one : ∃ m, dmaAllocate testDrive testState.machine (dmaPages 1) =
      .ok (20480, m) ∧
    (Scatters (readCommand testDrive 3 1 20480) 20480 512 1 ↔ 1 ≤ 0x2000) ∧
    (Scatters (writeCommand testDrive 3 1 20480) 20480 512 1 ↔ 1 ≤ 0x2000) := by
  have halloc : Post (dmaAllocate testDrive testState.machine (dmaPages 1)) (fun r => r.1 = 20480)
      fun _ => False := by
    decide +kernel
  obtain ⟨⟨_, m⟩, hm, rfl⟩ := halloc.returns
  exact ⟨m, hm, ata_prdt_covers_iff testDrive 3 1 (by decide) (by decide) hm⟩

def freeMachine (k : ℕ) (hk : k < 2 ^ 49) : Machine where
  mem _ := 0
  pmm := ⟨List.replicate k 0, 0, BitVec.ofNat 64 (8 * k), by rwa [List.length_replicate]⟩

theorem freeMachine_run (k : ℕ) (hk : k < 2 ^ 49) (n : ℕ) : Run (freeMachine k hk).pmm.Free 0 n := by
  intro q _ _
  have hbyte : (freeMachine k hk).pmm.byte (q / 8) = 0 := by
    change (replicate k (0 : BitVec 8)).getD (q / 8) 0 = 0
    rw [getD_eq_getElem?_getD, getElem?_replicate]
    split
    · rfl
    · rfl
  change ((freeMachine k hk).pmm.byte (q / 8) &&& _ != 0) = false
  rw [hbyte]
  simp

theorem freeMachine_allocate {k : ℕ} (hk : k < 2 ^ 49) {n : ℕ} (hn : 0 < n) (hle : n ≤ 8 * k) :
    ∃ r, dmaAllocate testDrive (freeMachine k hk) n = .ok r := by
  have hpages : 0 + n ≤ (freeMachine k hk).pmm.pages := by
    change 0 + n ≤ 8 * (replicate k (0 : BitVec 8)).length
    rw [length_replicate]
    omega
  obtain ⟨r, hr, -⟩ := (pmmAllocate_post (freeMachine k hk) hn).returns_of_not fun e he =>
    he.2 0 (zero_le 0) hpages (freeMachine_run k hk n)
  exact ⟨r, hr⟩

/-- Of a transfer of 8193 sectors the table names 512 bytes. -/
theorem ata_prdt_drops_bytes : ∃ base m,
    dmaAllocate testDrive (freeMachine 256 (by decide)) (dmaPages 0x2001) = .ok (base, m) ∧
    ((readCommand testDrive 0 0x2001 base).prdt.map Prd.bytes).sum = 512 ∧
    ¬Scatters (readCommand testDrive 0 0x2001 base) base (512 * 0x2001) (512 * 0x2001 / 4096 + 1) := by
  have hpages : dmaPages 0x2001 = (1025 : ℕ) := by decide
  obtain ⟨⟨base, m⟩, halloc⟩ := freeMachine_allocate (k := 256) (by decide) (n := 1025) (by decide)
    (by decide)
  rw [← hpages] at halloc
  obtain ⟨hbase, h32⟩ := dmaAllocate_base (by decide) halloc
  refine ⟨base, m, halloc, ?_, ?_⟩
  · rw [readCommand, Command.prdt, ataCommand_prdt (by decide) (by decide), map_singleton,
      sum_singleton, prd_bytes (by decide) (by decide)]
    decide
  · intro h
    have hle := (scatters_iff (by decide) (by decide) hbase h32).mp h
    exact absurd hle (by decide)

end GarnOS.Ahci
