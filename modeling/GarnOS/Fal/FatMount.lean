import GarnOS.Fal.FatScan

/-! The geometry that `attach` computes from the boot sector of a FAT volume. -/
namespace GarnOS
open Outcome Nat

namespace Bpb

/-- The bytes of the jump, and below the other fields of the boot sector that the driver reads. -/
def jump (b : DiskBlock) (i : ℕ) : ℕ := b.field i 1
def bytesPerSector (b : DiskBlock) : ℕ := b.field 11 2
def sectorsPerCluster (b : DiskBlock) : ℕ := b.field 13 1
def reservedSectorCount (b : DiskBlock) : ℕ := b.field 14 2
def fatCount (b : DiskBlock) : ℕ := b.field 16 1
def rootEntryCount (b : DiskBlock) : ℕ := b.field 17 2
def totalSectors16 (b : DiskBlock) : ℕ := b.field 19 2
def fatSize16 (b : DiskBlock) : ℕ := b.field 22 2
def totalSectors32 (b : DiskBlock) : ℕ := b.field 32 4
def fatSize32 (b : DiskBlock) : ℕ := b.field 36 4
def rootCluster (b : DiskBlock) : ℕ := b.field 44 4

def sectorCount (b : DiskBlock) : ℕ :=
  if totalSectors16 b = 0 then totalSectors32 b else totalSectors16 b

def fatSize (b : DiskBlock) : ℕ := if fatSize16 b = 0 then fatSize32 b else fatSize16 b

/-- The label of the volume, if the signature before it is there. -/
def volLabel (b : DiskBlock) (bootSig volLabel : ℕ) : List UInt8 :=
  if b.field bootSig 1 = 0x29 then (List.range 11).map fun i => b.byte (volLabel + i)
  else "NO NAME   ".toList.map (fun c => UInt8.ofNat c.toNat) ++ [0]

end Bpb

def probeOEMIDs : List String :=
  ["GARNFAT ", "MSDOS2.0", "MSDOS2.1", "MSDOS3.0", "MSDOS3.1", "MSDOS3.2", "MSDOS3.3", "MSDOS4.0",
    "MSDOS5.0", "MSDOS5.1", "MSWIN4.0", "MSWIN4.1", "FRDOS5.1", "mkdosfs ", "mkfs.fat"]

/-- `probe`, with what `bcache_get` gives for the first sector of the partition. -/
def probe (type : DriveType) (buf : Option DiskBlock) : Bool :=
  type ≠ .optical && buf.elim false fun b =>
    Bpb.bytesPerSector b ≠ 0 && !(Bpb.jump b 0 ≠ 0xEB && Bpb.jump b 2 ≠ 0x90) &&
      probeOEMIDs.any fun id => b.strncmp 8 3 (id.toList.map fun c => UInt8.ofNat c.toNat) = 0

structure FatMetadata where
  bpb : DiskBlock
  sectorCount : ℕ
  fatSize : ℕ
  rootDirSectors : ℕ
  firstDataSector : ℕ
  firstFATSector : ℕ
  dataSectorCount : ℕ
  clusterCount : ℕ

structure FatMount where
  metadata : FatMetadata
  name : List UInt8
  root : FatDir

/-- The calculations of `attach`: sums and products of 32 bits, a difference of 64 bits. -/
def fatMetadata (b : DiskBlock) : Except Fault FatMetadata := do
  let rootDirSectors ←
    divide (Bpb.rootEntryCount b * 32 + (Bpb.bytesPerSector b - 1)) (Bpb.bytesPerSector b)
  let firstDataSector : ℕ :=
    (Bpb.reservedSectorCount b + Bpb.fatCount b * Bpb.fatSize b + rootDirSectors) % 2 ^ 32
  let dataSectorCount := u64 (Bpb.sectorCount b - firstDataSector)
  let clusterCount ← divide dataSectorCount (Bpb.sectorsPerCluster b)
  return ⟨b, Bpb.sectorCount b, Bpb.fatSize b, rootDirSectors, firstDataSector,
    Bpb.reservedSectorCount b, dataSectorCount, clusterCount⟩

def FatMetadata.type (m : FatMetadata) : FatType :=
  if m.clusterCount < 4085 then .fat12 else if m.clusterCount < 65525 then .fat16 else .fat32

/-- The root directory: its cluster is only set on FAT32. -/
def FatMetadata.root (m : FatMetadata) : FatDir where
  type := m.type
  node := ⟨[], .dir, m.rootDirSectors * Bpb.bytesPerSector m.bpb % 2 ^ 32,
    if m.type = .fat32 then Bpb.rootCluster m.bpb else 0⟩
  isDir := rfl
  root := fun h => if_neg h

/-- `attach`, with what `bcache_get` gives; NULL makes it fail. -/
def attach (buf : Option DiskBlock) : Except Fault (Option FatMount) :=
  buf.elim (.ok none) fun b => do
    let m ← fatMetadata b
    let name := if m.type = .fat32 then Bpb.volLabel b 66 71 else Bpb.volLabel b 38 43
    return some ⟨m, name, m.root⟩

namespace FatMetadata

def disk (m : FatMetadata) (startLBA : ℕ) (block : ℕ → Option DiskBlock) : FatDisk where
  startLBA := startLBA
  firstFATSector := m.firstFATSector
  firstDataSector := m.firstDataSector
  sectorsPerCluster := Bpb.sectorsPerCluster m.bpb
  block := block

/-- The sectors of a cluster, counted from the start of the partition. -/
def sectors (m : FatMetadata) (c : ℕ) : List ℕ := (m.disk 0 fun _ => none).volume.sectors c

def IsCluster (m : FatMetadata) (c : ℕ) : Prop := 2 ≤ c ∧ c < m.clusterCount + 2

/-- The geometry is that of the integers, and the clusters are disjoint parts of the volume. -/
structure Sound (m : FatMetadata) : Prop where
  firstDataSector : m.firstDataSector =
    Bpb.reservedSectorCount m.bpb + Bpb.fatCount m.bpb * m.fatSize + m.rootDirSectors
  dataSectorCount : (m.dataSectorCount : ℤ) = m.sectorCount - m.firstDataSector
  count : ∀ c, m.IsCluster c →
    (m.sectors c).length = Bpb.sectorsPerCluster m.bpb ∧ (m.sectors c).Nodup
  inside : ∀ c, m.IsCluster c →
    ∀ sector ∈ m.sectors c, m.firstDataSector ≤ sector ∧ sector < m.sectorCount
  disjoint : ∀ c c', m.IsCluster c → m.IsCluster c' → c ≠ c' →
    (m.sectors c).Disjoint (m.sectors c')

end FatMetadata

/-- `attach` fails without a fault, or computes a sound geometry. -/
def AttachSafe (r : Except Fault (Option FatMount)) : Prop :=
  ∃ mount, r = .ok mount ∧ ∀ m, mount = some m → m.metadata.Sound

section Geometry
variable {b : DiskBlock} {m : FatMetadata} {c : ℕ}

def Bpb.dataStart (b : DiskBlock) : ℕ :=
  reservedSectorCount b + fatCount b * fatSize b +
    (rootEntryCount b * 32 + (bytesPerSector b - 1)) / bytesPerSector b

theorem Bpb.sectorCount_lt (b : DiskBlock) : sectorCount b < 2 ^ 32 := by
  have h16 : totalSectors16 b < 256 ^ 2 := b.field_lt 19 2
  have h32 : totalSectors32 b < 256 ^ 4 := b.field_lt 32 4
  unfold sectorCount
  split <;> omega

theorem probe_bytesPerSector {type : DriveType} (h : probe type (some b) = true) :
    Bpb.bytesPerSector b ≠ 0 := by
  simp only [probe, Option.elim_some, Bool.and_eq_true, decide_eq_true_eq] at h
  exact h.2.1.1

def fatGeometry (b : DiskBlock) : FatMetadata where
  bpb := b
  sectorCount := Bpb.sectorCount b
  fatSize := Bpb.fatSize b
  rootDirSectors := (Bpb.rootEntryCount b * 32 + (Bpb.bytesPerSector b - 1)) / Bpb.bytesPerSector b
  firstDataSector := Bpb.dataStart b % 2 ^ 32
  firstFATSector := Bpb.reservedSectorCount b
  dataSectorCount := u64 (Bpb.sectorCount b - (Bpb.dataStart b % 2 ^ 32 : ℕ))
  clusterCount := u64 (Bpb.sectorCount b - (Bpb.dataStart b % 2 ^ 32 : ℕ)) / Bpb.sectorsPerCluster b

theorem fatMetadata_eq (hbytes : Bpb.bytesPerSector b ≠ 0) (hcluster : Bpb.sectorsPerCluster b ≠ 0) :
    fatMetadata b = .ok (fatGeometry b) := by
  rw [fatMetadata, divide, if_neg hbytes]
  dsimp only [ok_bind]
  rw [divide, if_neg hcluster]
  rfl

theorem fatMetadata_fault (hbytes : Bpb.bytesPerSector b ≠ 0)
    (hcluster : Bpb.sectorsPerCluster b = 0) :
    fatMetadata b = .error (.panic "Divide Error" "" []) := by
  rw [fatMetadata, divide, if_neg hbytes]
  dsimp only [ok_bind]
  rw [divide, if_pos hcluster]
  rfl

section Clusters
variable
  (hfits : m.firstDataSector + Bpb.sectorsPerCluster m.bpb * m.clusterCount ≤ m.sectorCount)
include hfits

theorem FatMetadata.IsCluster.end_le (hc : m.IsCluster c) :
    m.firstDataSector + Bpb.sectorsPerCluster m.bpb * (c - 2) + Bpb.sectorsPerCluster m.bpb ≤
      m.sectorCount := by
  have hnext : c - 2 + 1 ≤ m.clusterCount := by
    have := hc.1
    have := hc.2
    omega
  calc m.firstDataSector + Bpb.sectorsPerCluster m.bpb * (c - 2) + Bpb.sectorsPerCluster m.bpb
      = m.firstDataSector + Bpb.sectorsPerCluster m.bpb * (c - 2 + 1) := by ring
    _ ≤ m.firstDataSector + Bpb.sectorsPerCluster m.bpb * m.clusterCount := by gcongr
    _ ≤ m.sectorCount := hfits

variable (hcluster : Bpb.sectorsPerCluster m.bpb ≠ 0)
include hcluster

variable (hc : m.IsCluster c) (hcount : m.sectorCount < 2 ^ 64)
include hc hcount

/-- Without wrapping, a cluster is a row of sectors behind those of the clusters before. -/
theorem FatMetadata.IsCluster.sectors_eq :
    m.sectors c = (List.range (Bpb.sectorsPerCluster m.bpb)).map
      (m.firstDataSector + Bpb.sectorsPerCluster m.bpb * (c - 2) + ·) := by
  have hend := hc.end_le hfits
  have hindex : (c + 2 ^ 64 - 2) % 2 ^ 64 = c - 2 := by
    have hle : c - 2 ≤ Bpb.sectorsPerCluster m.bpb * (c - 2) :=
      Nat.le_mul_of_pos_left _ (Nat.pos_of_ne_zero hcluster)
    have := hc.1
    omega
  show (List.range (Bpb.sectorsPerCluster m.bpb)).map ((0 + m.firstDataSector +
    Bpb.sectorsPerCluster m.bpb * ((c + 2 ^ 64 - 2) % 2 ^ 64)) % 2 ^ 64 + ·) = _
  rw [hindex, zero_add, mod_eq_of_lt (by omega)]

theorem FatMetadata.IsCluster.mem_sectors {sector : ℕ} :
    sector ∈ m.sectors c ↔ ∃ i < Bpb.sectorsPerCluster m.bpb,
      m.firstDataSector + Bpb.sectorsPerCluster m.bpb * (c - 2) + i = sector := by
  rw [hc.sectors_eq hfits hcluster hcount, List.mem_map]
  simp

theorem FatMetadata.IsCluster.index_eq {sector : ℕ} (hsector : sector ∈ m.sectors c) :
    (sector - m.firstDataSector) / Bpb.sectorsPerCluster m.bpb + 2 = c := by
  obtain ⟨i, hi, rfl⟩ := (hc.mem_sectors hfits hcluster hcount).mp hsector
  rw [Nat.add_assoc, Nat.add_sub_cancel_left, Nat.mul_add_div (Nat.pos_of_ne_zero hcluster),
    div_eq_of_lt hi]
  have := hc.1
  omega

end Clusters

theorem fatGeometry_sound (hcluster : Bpb.sectorsPerCluster b ≠ 0)
    (hfits : Bpb.dataStart b ≤ Bpb.sectorCount b) : (fatGeometry b).Sound := by
  have hcount := Bpb.sectorCount_lt b
  have hstart : Bpb.dataStart b % 2 ^ 32 = Bpb.dataStart b := mod_eq_of_lt (by omega)
  have hdata : u64 (Bpb.sectorCount b - (Bpb.dataStart b % 2 ^ 32 : ℕ)) =
      Bpb.sectorCount b - Bpb.dataStart b := by
    rw [hstart, u64]
    omega
  have hfirst : (fatGeometry b).firstDataSector = Bpb.dataStart b := hstart
  have hinside : (fatGeometry b).firstDataSector +
      Bpb.sectorsPerCluster (fatGeometry b).bpb * (fatGeometry b).clusterCount ≤
        (fatGeometry b).sectorCount := by
    show Bpb.dataStart b % 2 ^ 32 + Bpb.sectorsPerCluster b *
      (u64 (Bpb.sectorCount b - (Bpb.dataStart b % 2 ^ 32 : ℕ)) / Bpb.sectorsPerCluster b) ≤
        Bpb.sectorCount b
    rw [hdata, hstart]
    have := mul_div_le (Bpb.sectorCount b - Bpb.dataStart b) (Bpb.sectorsPerCluster b)
    omega
  have hwide : (fatGeometry b).sectorCount < 2 ^ 64 := lt_trans hcount (by decide)
  constructor
  · exact hfirst
  · rw [hfirst]
    show ((u64 (Bpb.sectorCount b - (Bpb.dataStart b % 2 ^ 32 : ℕ)) : ℕ) : ℤ) =
      Bpb.sectorCount b - Bpb.dataStart b
    rw [hdata]
    omega
  · intro c hc
    rw [hc.sectors_eq hinside hcluster hwide, List.length_map, List.length_range]
    exact ⟨rfl, List.nodup_range.map fun i j hij => add_left_cancel hij⟩
  · intro c hc sector hsector
    have hend := hc.end_le hinside
    obtain ⟨i, hi, rfl⟩ := (hc.mem_sectors hinside hcluster hwide).mp hsector
    exact ⟨by omega, by omega⟩
  · intro c c' hc hc' hne sector hsector hsector'
    exact hne ((hc.index_eq hinside hcluster hwide hsector).symm.trans
      (hc'.index_eq hinside hcluster hwide hsector'))

theorem FatMetadata.Sound.fits (h : (fatGeometry b).Sound) :
    Bpb.dataStart b ≤ Bpb.sectorCount b := by
  have hfirst : Bpb.dataStart b % 2 ^ 32 = Bpb.dataStart b := h.firstDataSector
  have hdata : (u64 (Bpb.sectorCount b - (Bpb.dataStart b % 2 ^ 32 : ℕ)) : ℤ) =
      Bpb.sectorCount b - (Bpb.dataStart b % 2 ^ 32 : ℕ) := h.dataSectorCount
  omega

/-- The geometry of an accepted volume is sound exactly if its clusters have sectors, and its data
starts inside it. -/
theorem fat_geometry_iff {type : DriveType} (h : probe type (some b) = true) :
    AttachSafe (attach (some b)) ↔
      Bpb.sectorsPerCluster b ≠ 0 ∧ Bpb.dataStart b ≤ Bpb.sectorCount b := by
  have hbytes := probe_bytesPerSector h
  unfold AttachSafe attach
  rw [Option.elim_some]
  by_cases hcluster : Bpb.sectorsPerCluster b = 0
  · rw [fatMetadata_fault hbytes hcluster]
    refine iff_of_false ?_ fun h => h.1 hcluster
    rintro ⟨mount, hmount, -⟩
    cases hmount
  · rw [fatMetadata_eq hbytes hcluster, and_iff_right hcluster]
    constructor
    · rintro ⟨mount, hmount, hsound⟩
      exact (hsound _ (Except.ok.inj hmount).symm).fits
    · intro hfits
      refine ⟨_, rfl, fun m hm => ?_⟩
      cases hm
      exact fatGeometry_sound hcluster hfits

end Geometry

/-- The boot sector of a floppy disk, but for the sectors of a cluster. -/
def floppyBoot (sectorsPerCluster : UInt8) : DiskBlock := fun i =>
  [0xEB, 0x3C, 0x90, 0x4D, 0x53, 0x57, 0x49, 0x4E, 0x34, 0x2E, 0x31, 0x00, 0x02, sectorsPerCluster,
    0x01, 0x00, 0x02, 0xE0, 0x00, 0x40, 0x0B, 0xF0, 0x09, 0x00].getD i.val 0

theorem fat_geometry_floppy : AttachSafe (attach (some (floppyBoot 1))) := by
  have hprobe : probe .floppy (some (floppyBoot 1)) = true := by decide
  exact (fat_geometry_iff hprobe).mpr ⟨by decide, by decide⟩

/-- With clusters of no sectors it is accepted as well, and `attach` divides by their number. -/
theorem fat_geometry_noSectors : probe .floppy (some (floppyBoot 0)) = true ∧
    attach (some (floppyBoot 0)) = .error (.panic "Divide Error" "" []) ∧
    ¬AttachSafe (attach (some (floppyBoot 0))) := by
  have hmetadata : fatMetadata (floppyBoot 0) = .error (.panic "Divide Error" "" []) :=
    fatMetadata_fault (by decide) (by decide)
  have hattach : attach (some (floppyBoot 0)) = .error (.panic "Divide Error" "" []) := by
    rw [attach, Option.elim_some, hmetadata]
    rfl
  refine ⟨by decide, hattach, ?_⟩
  rintro ⟨mount, hmount, -⟩
  rw [hattach] at hmount
  cases hmount

end GarnOS
