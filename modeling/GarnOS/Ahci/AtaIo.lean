import GarnOS.Mem.PmmAlloc

/-! Reading and writing an ATA drive behind an AHCI controller. The data goes through pages of its
own, which the command's descriptor table names. -/
namespace GarnOS.Ahci
open ByteMemory Outcome FirstFit Nat

def ENODEV : ℤ := 19

def FIS_TYPE_REG_H2D : BitVec 8 := 0x27
def ATA_CMD_READ_DMA : BitVec 8 := 0xC8
def ATA_CMD_READ_DMA_EXT : BitVec 8 := 0x25
def ATA_CMD_WRITE_DMA : BitVec 8 := 0xCA
def ATA_CMD_WRITE_DMA_EXT : BitVec 8 := 0x35

structure Prd where
  dba : BitVec 32
  dbau : BitVec 32
  dbc : BitVec 22
  i : Bool

/-- The fields of `fis_reg_h2d_t` that the driver sets; the others stay zero. -/
structure Fis where
  fisType : BitVec 8
  c : Bool
  command : BitVec 8
  lba0 : BitVec 8
  lba1 : BitVec 8
  lba2 : BitVec 8
  device : BitVec 8
  lba3 : BitVec 8
  lba4 : BitVec 8
  lba5 : BitVec 8
  countLow : BitVec 8
  countHigh : BitVec 8

/-- A command slot: the header's fields and the table it points to. -/
structure Command where
  cfl : ℕ
  c : Bool
  p : Bool
  w : Bool
  prdtLength : BitVec 16
  prdtEntries : List Prd
  cfis : Fis

/-- What the driver reads of the drive and of its controller. -/
structure Drive where
  port : ℕ
  capabilities : BitVec 32
  cap1 : BitVec 32
  maxCommands : ℕ
  sact : BitVec 32
  ci : BitVec 32

/-- The hardware: which sectors a command names, whether a port becomes idle in time, and whether a
command ends with a task file error. -/
structure Device where
  extent : Fis → ℕ × ℕ
  idle : ℕ → Bool
  fault : Command → Bool

/-- Memory, the page allocator, and the bytes of the drive. -/
structure State where
  machine : Machine
  disk : Mem

def ahciFindCmdSlot (d : Drive) : Option ℕ :=
  (List.range d.maxCommands).find? fun i => ((d.sact ||| d.ci) >>> i) &&& 1 = 0

def Drive.s64a (d : Drive) : Bool := d.cap1.getLsbD 31

/-- One entry, for the range of `dbc + 1` bytes at `bufContinuous + bufContOffset`. -/
def prd (s64a : Bool) (bufContinuous : BitVec 64) (bufContOffset : BitVec 32)
    (dbc : BitVec 22) : Prd :=
  let a := bufContinuous + bufContOffset.signExtend 64
  if s64a then ⟨a.setWidth 32, (a >>> 32).setWidth 32, dbc, false⟩ else ⟨a.setWidth 32, 0, dbc, false⟩

/-- The loop over the full entries, and the last one. -/
def prdtEntries (s64a : Bool) (bufContinuous : BitVec 64) :
    ℕ → BitVec 32 → BitVec 64 → List Prd
  | 0, bufContOffset, blocks =>
    [prd s64a bufContinuous bufContOffset ((blocks * 512 - 1).setWidth 22)]
  | n + 1, bufContOffset, blocks => prd s64a bufContinuous bufContOffset 0x3FFFFF ::
      prdtEntries s64a bufContinuous n (bufContOffset + 0x400000) (blocks - 0x2000)

/-- The command FIS, with the commands for 48-bit and for other addresses. -/
def cmdFis (d : Drive) (dmaExt dma : BitVec 8) (startLBA count : BitVec 64) : Fis :=
  let countLow := (count &&& 0xFF).setWidth 8
  let countHigh := ((count >>> 8) &&& 0xFF).setWidth 8
  if startLBA ≥ 0x100000 then
    ⟨FIS_TYPE_REG_H2D, true, dmaExt, startLBA.setWidth 8, (startLBA >>> 8).setWidth 8,
      (startLBA >>> 16).setWidth 8, 0x40, (startLBA >>> 24).setWidth 8, (startLBA >>> 32).setWidth 8,
      (startLBA >>> 40).setWidth 8, countLow, countHigh⟩
  else if d.capabilities.getLsbD 9 then
    ⟨FIS_TYPE_REG_H2D, true, dma, startLBA.setWidth 8, (startLBA >>> 8).setWidth 8,
      (startLBA >>> 16).setWidth 8, 0x40, 0, 0, 0, countLow, countHigh⟩
  else
    let sect := startLBA % 63 + 1
    let cyl := (startLBA + 1 - sect) / (16 * 63)
    ⟨FIS_TYPE_REG_H2D, true, dma, sect.setWidth 8, cyl.setWidth 8, (cyl >>> 8).setWidth 8, 0, 0, 0, 0,
      countLow, countHigh⟩

/-- The physical address of byte `k` of the transfer. -/
def prdtAddress : List Prd → ℕ → Option ℕ
  | [], _ => none
  | e :: es, k =>
    if k < e.dbc.toNat + 1 then some (e.dbau.toNat * 2 ^ 32 + e.dba.toNat + k)
    else prdtAddress es (k - (e.dbc.toNat + 1))

def Command.address (cmd : Command) (k : ℕ) : Option ℕ :=
  prdtAddress (cmd.prdtEntries.take cmd.prdtLength.toNat) k

def Command.fetch (cmd : Command) (disk : Mem) (lba k : ℕ) (m : Mem) : Mem :=
  (cmd.address k).elim m fun a => Function.update m a (disk (512 * lba + k))

/-- The device's side of setting the command-issue bit. -/
def Device.issue (dev : Device) (cmd : Command) (s : State) : State :=
  let lba := (dev.extent cmd.cfis).1
  let count := (dev.extent cmd.cfis).2
  if cmd.w then
    { s with disk := fun x =>
        if 512 * lba ≤ x ∧ x < 512 * (lba + count) then
          ((cmd.address (x - 512 * lba)).map s.machine.mem).getD (s.disk x)
        else s.disk x }
  else
    let mem := Nat.fold (512 * count) (fun k _ => cmd.fetch s.disk lba k) s.machine.mem
    { s with machine := { s.machine with mem := mem } }

def dmaAllocate (d : Drive) (m : Machine) (npages : ℤ) : Except Fault (ℕ × Machine) :=
  if d.s64a then pmmAllocate m npages else pmmAllocate32 m npages

/-- The pages that a transfer of `blocks` sectors asks for. -/
def dmaPages (blocks : BitVec 64) : ℤ := int32 (blocks * 512 / 4096 + 1).toNat

def ataCommand (d : Drive) (w : Bool) (dmaExt dma : BitVec 8) (startLBA blocks : BitVec 64)
    (bufContinuous : ℕ) : Command :=
  let prdtLength : BitVec 16 := ((blocks - 1) / 0x400000).setWidth 16 + 1
  { cfl := 5, c := true, p := false, w := w, prdtLength := prdtLength
    prdtEntries := prdtEntries d.s64a (BitVec.ofNat 64 bufContinuous)
      (prdtLength.toNat - 1) 0 blocks
    cfis := cmdFis d dmaExt dma startLBA blocks }

def readCommand (d : Drive) : BitVec 64 → BitVec 64 → ℕ → Command :=
  ataCommand d false ATA_CMD_READ_DMA_EXT ATA_CMD_READ_DMA

def writeCommand (d : Drive) : BitVec 64 → BitVec 64 → ℕ → Command :=
  ataCommand d true ATA_CMD_WRITE_DMA_EXT ATA_CMD_WRITE_DMA

/-- The body that `ahci_ata_read` and `ahci_ata_write` share, with the command that it issues. The
port that is waited for is the one numbered like the last entry of the table. -/
def ahciAtaIo (dev : Device) (d : Drive) (command : BitVec 64 → BitVec 64 → ℕ → Command)
    (startLBA blocks : BitVec 64) (buf : ℕ) (s : State) : Except Fault (ℤ × State) :=
  if blocks > 0xFFFF then .ok (-EINVAL, s)
  else if ahciFindCmdSlot d = none then .ok (-1, s)
  else do
    let r ← dmaAllocate d s.machine (dmaPages blocks)
    let cmd := command startLBA blocks r.1
    let s : State := { s with machine := r.2 }
    if dev.idle (cmd.prdtLength.toNat - 1) = false then return (-ENODEV, s)
    let s := dev.issue cmd s
    if dev.fault cmd then return (-ENODEV, s)
    let mem := memcpy s.machine.mem buf r.1 (blocks * 512).toNat
    let machine ← pmmFree { s.machine with mem := mem } r.1 (dmaPages blocks)
    return (0, { s with machine := machine })

def ahciAtaRead (dev : Device) (d : Drive) := ahciAtaIo dev d (readCommand d)

/-- The copy at the end goes from the pages of the transfer to the caller's buffer, as in the
read. -/
def ahciAtaWrite (dev : Device) (d : Drive) := ahciAtaIo dev d (writeCommand d)

structure OnePrd (blocks : BitVec 64) : Prop where
  pos : 1 ≤ blocks.toNat
  le : blocks.toNat ≤ 8192

section Command
variable {dev : Device} {d : Drive} {w : Bool} {dmaExt dma : BitVec 8} {startLBA blocks : BitVec 64}
  {s : State} {base : ℕ}

theorem transfer_bytes (h : blocks.toNat ≤ 0xFFFF) :
    (blocks * 512).toNat = 512 * blocks.toNat := by
  rw [BitVec.toNat_mul, show BitVec.toNat (512 : BitVec 64) = 512 from rfl,
    mod_eq_of_lt (by omega), mul_comm]

theorem dmaPages_eq (h : blocks.toNat ≤ 0xFFFF) :
    dmaPages blocks = (blocks.toNat / 8 + 1 : ℕ) := by
  have hn : (blocks * 512 / 4096 + 1).toNat = blocks.toNat / 8 + 1 := by
    rw [BitVec.toNat_add, BitVec.toNat_udiv, transfer_bytes h,
      show BitVec.toNat (4096 : BitVec 64) = 4096 from rfl,
      show BitVec.toNat (1 : BitVec 64) = 1 from rfl]
    omega
  unfold dmaPages int32
  rw [hn, Int.bmod_eq_of_le]
  · omega
  · omega

/-- The divisor counts bytes and the dividend sectors, so the table never has a second entry. -/
theorem prdtLength_eq (hpos : 1 ≤ blocks.toNat) (hle : blocks.toNat ≤ 0xFFFF) :
    ((blocks - 1) / 0x400000).setWidth 16 + 1 = (1 : BitVec 16) := by
  have hzero : (blocks - 1) / 0x400000 = 0 := by
    apply BitVec.eq_of_toNat_eq
    rw [BitVec.toNat_udiv, BitVec.toNat_sub, show BitVec.toNat (1 : BitVec 64) = 1 from rfl,
      show BitVec.toNat (0x400000 : BitVec 64) = 0x400000 from rfl]
    change _ = 0
    omega
  rw [hzero]
  rfl

theorem OnePrd.admitted (h : OnePrd blocks) : blocks.toNat ≤ 0xFFFF := h.le.trans (by decide)

@[simp] theorem prd_dbc (s64a : Bool) (a : BitVec 64) (o : BitVec 32) (dbc : BitVec 22) :
    (prd s64a a o dbc).dbc = dbc := by
  cases s64a <;> rfl

theorem prd_address (s64a : Bool) (dbc : BitVec 22) (hbase : base < 2 ^ 64)
    (h32 : s64a = false → base < 2 ^ 32) :
    (prd s64a (BitVec.ofNat 64 base) 0 dbc).dbau.toNat * 2 ^ 32 +
      (prd s64a (BitVec.ofNat 64 base) 0 dbc).dba.toNat = base := by
  have hoffset : BitVec.ofNat 64 base + BitVec.signExtend 64 (0 : BitVec 32) = BitVec.ofNat 64 base := by
    rw [show BitVec.signExtend 64 (0 : BitVec 32) = 0 from rfl]
    exact BitVec.add_zero _
  unfold prd
  rw [hoffset]
  cases s64a with
  | true =>
    simp only [↓reduceIte, BitVec.toNat_setWidth, BitVec.toNat_ushiftRight, BitVec.toNat_ofNat,
      shiftRight_eq_div_pow]
    omega
  | false =>
    have hlow := h32 rfl
    simp only [Bool.false_eq_true, ↓reduceIte, BitVec.toNat_setWidth, BitVec.toNat_ofNat]
    have hzero : BitVec.toNat (0 : BitVec 32) = 0 := rfl
    omega

theorem ataCommand_prdt (hpos : 1 ≤ blocks.toNat) (hle : blocks.toNat ≤ 0xFFFF) :
    (ataCommand d w dmaExt dma startLBA blocks base).prdtEntries.take
      (ataCommand d w dmaExt dma startLBA blocks base).prdtLength.toNat =
    [prd d.s64a (BitVec.ofNat 64 base) 0 ((blocks * 512 - 1).setWidth 22)] := by
  simp only [ataCommand, prdtLength_eq hpos hle]
  rfl

variable {k lba count : ℕ} {cmd : Command}

theorem OnePrd.address (h : OnePrd blocks) (hbase : base < 2 ^ 64)
    (h32 : d.s64a = false → base < 2 ^ 32) (hk : k < 512 * blocks.toNat) :
    (ataCommand d w dmaExt dma startLBA blocks base).address k = some (base + k) := by
  have hpos := h.pos
  have hle := h.le
  have hdbc : ((blocks * 512 - 1).setWidth 22).toNat + 1 = 512 * blocks.toNat := by
    rw [BitVec.toNat_setWidth, BitVec.toNat_sub, transfer_bytes h.admitted,
      show BitVec.toNat (1 : BitVec 64) = 1 from rfl]
    omega
  rw [Command.address, ataCommand_prdt hpos h.admitted, prdtAddress, prd_dbc, hdbc, if_pos hk,
    prd_address _ _ hbase h32]

/-- The command names the range of physical memory at `base`. -/
def Covers (cmd : Command) (base n : ℕ) : Prop := ∀ k < n, cmd.address k = some (base + k)

theorem issue_write (hw : cmd.w = true) (hextent : dev.extent cmd.cfis = (lba, count))
    (hcovers : Covers cmd base (512 * count)) (hk : k < 512 * count) :
    (dev.issue cmd s).disk (512 * lba + k) = s.machine.mem (base + k) := by
  unfold Device.issue
  rw [if_pos hw, hextent]
  dsimp only
  rw [if_pos (by omega), Nat.add_sub_cancel_left, hcovers k hk]
  rfl

theorem issue_write_machine (hw : cmd.w = true) : (dev.issue cmd s).machine = s.machine := by
  unfold Device.issue
  rw [if_pos hw]

theorem issue_pmm (dev : Device) (cmd : Command) (s : State) :
    (dev.issue cmd s).machine.pmm = s.machine.pmm := by
  unfold Device.issue
  split <;> rfl

theorem issue_read (hw : cmd.w = false) (hextent : dev.extent cmd.cfis = (lba, count))
    (hcovers : Covers cmd base (512 * count)) (x : ℕ) :
    (dev.issue cmd s).machine.mem x = if base ≤ x ∧ x < base + 512 * count then
      s.disk (512 * lba + (x - base)) else s.machine.mem x := by
  unfold Device.issue
  rw [if_neg (by simp [hw]), hextent]
  refine fold_invariant (fun k (m : Mem) => m x = if base ≤ x ∧ x < base + k then
    s.disk (512 * lba + (x - base)) else s.machine.mem x) ?_ fun k m hk hm => ?_
  · rw [if_neg (by omega)]
  · rw [Command.fetch, hcovers k hk, Option.elim_some]
    by_cases hx : x = base + k
    · rw [hx, Function.update_self, if_pos (by omega), Nat.add_sub_cancel_left]
    · have hiff : (base ≤ x ∧ x < base + k) ↔ (base ≤ x ∧ x < base + (k + 1)) := by omega
      simp [Function.update_of_ne hx, hm, hiff]

structure Allocated (d : Drive) (m : Machine) (b n : ℕ) (m' : Machine) : Prop where
  fits : b + n ≤ m.pmm.pages
  free : Run m.pmm.Free b n
  low : d.s64a = false → b + n ≤ 2 ^ 20
  pages : m'.pmm.pages = m.pmm.pages
  mem : m'.mem = m.mem

theorem dmaAllocate_post (d : Drive) (m : Machine) {n : ℕ} (hn : 0 < n) :
    Post (dmaAllocate d m n) (fun r => ∃ b, r.1 = b * 4096 ∧ Allocated d m b n r.2)
      (fun _ => True) := by
  unfold dmaAllocate
  split
  · rename_i h64
    refine (pmmAllocate_post m hn).mono ?_ fun _ _ => trivial
    rintro r ⟨b, hb, hfirst, hmarked, hmem⟩
    refine ⟨b, hb, hfirst.fits.1, hfirst.fits.2, ?_, pages_congr hmarked.length, hmem⟩
    simp [h64]
  · refine (pmmAllocate32_post m hn).mono ?_ fun _ _ => trivial
    rintro r ⟨b, hb, hfirst, hmarked, hmem⟩
    exact ⟨b, hb, hfirst.le.trans (min_le_left _ _), hfirst.run,
      fun _ => hfirst.le.trans (min_le_right _ _), pages_congr hmarked.length, hmem⟩

theorem Allocated.covers {m m' : Machine} {b : ℕ} (h : Allocated d m b (blocks.toNat / 8 + 1) m')
    (hone : OnePrd blocks) :
    Covers (ataCommand d w dmaExt dma startLBA blocks (b * 4096)) (b * 4096)
      (512 * blocks.toNat) := by
  have hlt := m.pmm.pages_lt
  have hfits := h.fits
  refine fun k hk => hone.address (by omega) (fun hs => ?_) hk
  have hlow := h.low hs
  omega

variable {s' : State} {buf : ℕ}

def InUse (m : Machine) (buf n : ℕ) : Prop := ∀ k < n, ¬m.pmm.Free ((buf + k) / 4096)

theorem InUse.outside {m : Machine} {b npages n : ℕ} (h : InUse m buf n)
    (hrun : Run m.pmm.Free b npages)
    {k : ℕ} (hk : k < n) : buf + k < b * 4096 ∨ (b + npages) * 4096 ≤ buf + k := by
  by_contra hin
  exact h k hk (hrun _ (by omega) (by omega))

theorem InUse.apart {m : Machine} {b npages n : ℕ} (h : InUse m buf n)
    (hrun : Run m.pmm.Free b npages)
    (hn : n ≤ npages * 4096) : buf + n ≤ b * 4096 ∨ b * 4096 + n ≤ buf := by
  obtain rfl | hpos := Nat.eq_zero_or_pos n
  · omega
  · by_contra hin
    have hmeet := h.outside hrun (k := b * 4096 - buf) (by omega)
    omega

variable (hone : OnePrd blocks) (hbuf : InUse s.machine buf (512 * blocks.toNat))
include hone hbuf

/-- What a successful transfer has done: it allocated pages, the device executed the command, and
the pages' bytes are in the caller's buffer. -/
theorem ahciAtaIo_success {command : BitVec 64 → BitVec 64 → ℕ → Command}
    (h : ahciAtaIo dev d command startLBA blocks buf s = .ok (0, s')) :
    ∃ b m, dmaAllocate d s.machine (dmaPages blocks) = .ok (b * 4096, m) ∧
      Allocated d s.machine b (blocks.toNat / 8 + 1) m ∧
      s'.disk = (dev.issue (command startLBA blocks (b * 4096)) ⟨m, s.disk⟩).disk ∧
      ∀ k < 512 * blocks.toNat, s'.machine.mem (buf + k) =
        (dev.issue (command startLBA blocks (b * 4096)) ⟨m, s.disk⟩).machine.mem (b * 4096 + k) := by
  have hle := hone.le
  have hpages := dmaPages_eq hone.admitted
  unfold ahciAtaIo at h
  rw [if_neg (by rw [gt_iff_lt, BitVec.lt_def]; exact not_lt.mpr (hle.trans (by decide)))] at h
  split at h
  · have hcode : (-1 : ℤ) = 0 := congrArg Prod.fst (Except.ok.inj h)
    exact absurd hcode (by decide)
  obtain ⟨r, hr, h⟩ := bind_eq_ok.mp h
  have hpost := dmaAllocate_post d s.machine (succ_pos (blocks.toNat / 8))
  obtain ⟨b, hb, halloc⟩ := hpost.of_ok (hpages ▸ hr)
  obtain ⟨base, m⟩ := r
  obtain rfl : base = b * 4096 := hb
  refine ⟨b, m, hr, halloc, ?_⟩
  dsimp only at h
  -- neither of the waits has failed
  iterate 2
    split at h
    · have hcode : -ENODEV = 0 := congrArg Prod.fst (Except.ok.inj h)
      exact absurd hcode (by decide)
  obtain ⟨machine, hfree, h⟩ := bind_eq_ok.mp h
  obtain rfl := congrArg Prod.snd (Except.ok.inj h)
  refine ⟨rfl, fun k hk => ?_⟩
  rw [hpages] at hfree
  have hmem := (pmmFree_mem _ (succ_pos _) (by omega)
    (by rw [issue_pmm]; exact halloc.pages ▸ halloc.fits) (hbuf.outside halloc.free hk)).of_ok hfree
  rw [hmem]
  dsimp only
  rw [transfer_bytes hone.admitted, memcpy_eq_copy _ (hbuf.apart halloc.free (by omega)),
    copy_in _ (by omega) (by omega), Nat.add_sub_cancel_left]

theorem ahciAtaRead_success
    (hextent : dev.extent (cmdFis d ATA_CMD_READ_DMA_EXT ATA_CMD_READ_DMA startLBA blocks) =
      (startLBA.toNat, blocks.toNat))
    (h : ahciAtaRead dev d startLBA blocks buf s = .ok (0, s')) {k : ℕ}
    (hk : k < 512 * blocks.toNat) :
    s'.machine.mem (buf + k) = s.disk (512 * startLBA.toNat + k) := by
  obtain ⟨b, m, -, halloc, -, hmem⟩ := ahciAtaIo_success hone hbuf h
  rw [hmem k hk, readCommand, issue_read rfl hextent (halloc.covers hone), if_pos (by omega),
    Nat.add_sub_cancel_left]

/-- A successful write puts the old contents of the pages of the transfer on the drive, and into the
caller's buffer. -/
theorem ahciAtaWrite_success
    (hextent : dev.extent (cmdFis d ATA_CMD_WRITE_DMA_EXT ATA_CMD_WRITE_DMA startLBA blocks) =
      (startLBA.toNat, blocks.toNat))
    (h : ahciAtaWrite dev d startLBA blocks buf s = .ok (0, s')) :
    ∃ base m, dmaAllocate d s.machine (dmaPages blocks) = .ok (base, m) ∧
      ∀ k < 512 * blocks.toNat,
        s'.disk (512 * startLBA.toNat + k) = s.machine.mem (base + k) ∧
        s'.machine.mem (buf + k) = s.machine.mem (base + k) := by
  obtain ⟨b, m, hr, halloc, hdisk, hmem⟩ := ahciAtaIo_success hone hbuf h
  refine ⟨b * 4096, m, hr, fun k hk => ⟨?_, ?_⟩⟩
  · rw [hdisk, writeCommand, issue_write rfl hextent (halloc.covers hone) hk, halloc.mem]
  · rw [hmem k hk, issue_write_machine rfl, halloc.mem]

end Command

/-- A write stores the caller's data exactly when the pages it is about to allocate hold that data
already. -/
theorem ata_write_stores_iff {dev : Device} {d : Drive} {startLBA blocks : BitVec 64} {s s' : State}
    {buf : ℕ} (hblocks : OnePrd blocks) (hbuf : InUse s.machine buf (512 * blocks.toNat))
    (hwrite : dev.extent (cmdFis d ATA_CMD_WRITE_DMA_EXT ATA_CMD_WRITE_DMA startLBA blocks) =
      (startLBA.toNat, blocks.toNat))
    (hread : dev.extent (cmdFis d ATA_CMD_READ_DMA_EXT ATA_CMD_READ_DMA startLBA blocks) =
      (startLBA.toNat, blocks.toNat))
    (h : ahciAtaWrite dev d startLBA blocks buf s = .ok (0, s')) :
    ((∀ k < 512 * blocks.toNat, s'.disk (512 * startLBA.toNat + k) = s.machine.mem (buf + k)) ∧
      (∀ k < 512 * blocks.toNat, s'.machine.mem (buf + k) = s.machine.mem (buf + k)) ∧
      ∀ dest t, InUse s'.machine dest (512 * blocks.toNat) →
        ahciAtaRead dev d startLBA blocks dest s' = .ok (0, t) →
        ∀ k < 512 * blocks.toNat, t.machine.mem (dest + k) = s.machine.mem (buf + k)) ↔
    ∀ base m, dmaAllocate d s.machine (dmaPages blocks) = .ok (base, m) →
      ∀ k < 512 * blocks.toNat, s.machine.mem (base + k) = s.machine.mem (buf + k) := by
  obtain ⟨base, m, halloc, hbytes⟩ := ahciAtaWrite_success hblocks hbuf hwrite h
  constructor
  · rintro ⟨hsectors, -, -⟩ base' m' halloc' k hk
    cases halloc.symm.trans halloc'
    rw [← (hbytes k hk).1, hsectors k hk]
  · intro hsame
    have hsectors : ∀ k < 512 * blocks.toNat,
        s'.disk (512 * startLBA.toNat + k) = s.machine.mem (buf + k) := fun k hk => by
      rw [(hbytes k hk).1, hsame base m halloc k hk]
    refine ⟨hsectors, fun k hk => ?_, fun dest t hdest ht k hk => ?_⟩
    · rw [(hbytes k hk).2, hsame base m halloc k hk]
    · rw [ahciAtaRead_success hblocks hdest hread ht hk, hsectors k hk]

/-- A drive with 28-bit addresses on an idle controller, and memory in which page 1 is a buffer of
ones and pages 5 and 6 are free. -/
def testDrive : Drive := ⟨0, 0x200, 0x80000000, 1, 0, 0⟩

def testDevice : Device where
  extent f := (f.lba0.toNat, f.countLow.toNat)
  idle _ := true
  fault _ := false

def testState : State :=
  ⟨⟨fun x => if 4096 ≤ x ∧ x < 8192 then 1 else 0, twoFree⟩, fun _ => 0⟩

theorem testState_inUse : InUse testState.machine 4096 512 := by
  intro k hk
  rw [show (4096 + k) / 4096 = 1 by omega]
  change ¬twoFree.test 1 = false
  decide

theorem testState_write : Post (ahciAtaWrite testDevice testDrive 3 1 4096 testState)
    (fun r => r.1 = 0 ∧ r.2.disk (512 * 3) = 0 ∧ r.2.machine.mem 4096 = 0) fun _ => False := by
  decide +kernel

theorem ata_write_stores_iff_one : ∃ s',
    ahciAtaWrite testDevice testDrive 3 1 4096 testState = .ok (0, s') ∧
    (((∀ k < 512, s'.disk (512 * 3 + k) = testState.machine.mem (4096 + k)) ∧
      (∀ k < 512, s'.machine.mem (4096 + k) = testState.machine.mem (4096 + k)) ∧
      ∀ dest t, InUse s'.machine dest 512 →
        ahciAtaRead testDevice testDrive 3 1 dest s' = .ok (0, t) →
        ∀ k < 512, t.machine.mem (dest + k) = testState.machine.mem (4096 + k)) ↔
    ∀ base m, dmaAllocate testDrive testState.machine (dmaPages 1) = .ok (base, m) →
      ∀ k < 512, testState.machine.mem (base + k) = testState.machine.mem (4096 + k)) := by
  obtain ⟨⟨_, s'⟩, hs', rfl, -⟩ := testState_write.returns
  exact ⟨s', hs', ata_write_stores_iff ⟨by decide, by decide⟩ testState_inUse rfl rfl hs'⟩

/-- The buffer of ones is not what the drive gets, and is overwritten. -/
theorem ata_write_loses_data : ∃ s',
    ahciAtaWrite testDevice testDrive 3 1 4096 testState = .ok (0, s') ∧
    testState.machine.mem 4096 = 1 ∧ s'.disk (512 * 3) = 0 ∧ s'.machine.mem 4096 = 0 := by
  obtain ⟨⟨_, s'⟩, hs', rfl, hdisk, hmem⟩ := testState_write.returns
  exact ⟨s', hs', rfl, hdisk, hmem⟩

end GarnOS.Ahci
