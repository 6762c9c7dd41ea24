import GarnOS.Dal.BlockReads
import GarnOS.Fal.FatReaddir

/-! The file allocation table of a FAT32 volume as bytes on its drive, and the cluster that
`fat32_next_cluster` finds in it. -/
namespace GarnOS

/-- A mounted volume and its drive: where the partition starts, the fields of the metadata that the
functions use, and the blocks that `bcache_get` gives. -/
structure FatDisk where
  startLBA : ℕ
  firstFATSector : ℕ
  firstDataSector : ℕ
  sectorsPerCluster : ℕ
  block : ℕ → Option DiskBlock

def IsDataCluster (n : ℕ) : Prop := 2 ≤ n ∧ n ≤ 0x0FFFFFF5

instance (n : ℕ) : Decidable (IsDataCluster n) := inferInstanceAs (Decidable (_ ∧ _))

/-- What FAT32 says of an entry: its low 28 bits are the next cluster if they denote one, and there
is none if they denote a free or a bad cluster or the end of the chain. -/
structure FollowsEntry (entry next : ℕ) : Prop where
  data : IsDataCluster (entry % 2 ^ 28) → next = entry % 2 ^ 28
  last : entry % 2 ^ 28 = 0 ∨ entry % 2 ^ 28 = 0x0FFFFFF7 ∨ 0x0FFFFFF8 ≤ entry % 2 ^ 28 → next = 0

namespace FatDisk

/-- The sector of the table that holds the entry of a cluster. -/
def fatSector (d : FatDisk) (cluster : ℕ) : ℕ :=
  (d.startLBA + d.firstFATSector + cluster / 128) % 2 ^ 64

/-- `fat32_next_cluster`: 0 behind the last, and if the sector cannot be read. -/
def fat32NextCluster (d : FatDisk) (cluster : ℕ) : ℕ :=
  match d.block (d.fatSector cluster) with
  | none => 0
  | some buf =>
    let entry := buf.field (4 * (cluster % 128)) 4
    if 0x0FFFFF6 ≤ entry then 0 else entry

/-- A byte of the table, which takes up the sectors from its first on; 0 where one cannot be
read. -/
def fatByte (d : FatDisk) (i : ℕ) : UInt8 :=
  ((d.block ((d.startLBA + d.firstFATSector + i / 512) % 2 ^ 64)).map
    fun buf => buf (Fin.ofNat 512 i)).getD 0

def entry (d : FatDisk) (cluster : ℕ) : ℕ := LittleEndian.number d.fatByte (4 * cluster) 4

/-- An entry of a directory, by its index in the sector. -/
def dirEntry (buf : DiskBlock) (j : ℕ) : DirEntry := fun k => buf (Fin.ofNat 512 (32 * j + k))

/-- The volume as the functions for directories see it. -/
def volume (d : FatDisk) : FatVolume where
  sectorsPerCluster := d.sectorsPerCluster
  firstDataSector := d.startLBA + d.firstDataSector
  directories := fun sector =>
    (d.block sector).elim [] fun buf => (List.range 16).map (dirEntry buf)
  fat := d.entry

section Entry
variable {d : FatDisk} {c : ℕ} {buf : DiskBlock}

theorem fatByte_of_block (h : d.block (d.fatSector c) = some buf) {i : ℕ} (hi : i < 4) :
    d.fatByte (4 * c + i) = buf (Fin.ofNat 512 (4 * (c % 128) + i)) := by
  have hsector : (4 * c + i) / 512 = c / 128 := by omega
  have hindex : Fin.ofNat 512 (4 * c + i) = Fin.ofNat 512 (4 * (c % 128) + i) := by
    apply Fin.ext
    simp only [Fin.val_ofNat]
    omega
  unfold fatSector at h
  rw [fatByte, hsector, h, Option.map_some, Option.getD_some, hindex]

theorem entry_of_block (h : d.block (d.fatSector c) = some buf) :
    d.entry c = buf.field (4 * (c % 128)) 4 :=
  LittleEndian.number_congr fun _ hi => fatByte_of_block h hi

theorem entry_of_unreadable (h : d.block (d.fatSector c) = none) : d.entry c = 0 := by
  show LittleEndian.number d.fatByte (4 * c) 4 = LittleEndian.number (fun _ => 0) 0 4
  have hbyte : ∀ i < 4, d.fatByte (4 * c + i) = 0 := by
    intro i hi
    have hsector : (4 * c + i) / 512 = c / 128 := by omega
    unfold fatSector at h
    rw [fatByte, hsector, h]
    rfl
  exact LittleEndian.number_congr hbyte

theorem fat32NextCluster_eq (d : FatDisk) (c : ℕ) :
    d.fat32NextCluster c = if 0x0FFFFF6 ≤ d.entry c then 0 else d.entry c := by
  unfold fat32NextCluster
  cases hblock : d.block (d.fatSector c) with
  | none =>
    rw [entry_of_unreadable hblock]
    rfl
  | some buf => rw [entry_of_block hblock]

end Entry

end FatDisk

/-- `fat32_next_cluster` follows the table exactly where an entry is below 0xFFFFF6, or denotes no
data cluster. -/
theorem fat32_next_cluster_iff (d : FatDisk) (c : ℕ) :
    FollowsEntry (d.entry c) (d.fat32NextCluster c) ↔
      d.entry c < 0xFFFFF6 ∨ ¬IsDataCluster (d.entry c % 2 ^ 28) := by
  rw [d.fat32NextCluster_eq c]
  generalize d.entry c = entry
  by_cases hsmall : entry < 0xFFFFF6
  · have hlow : entry % 2 ^ 28 = entry := Nat.mod_eq_of_lt (by omega)
    rw [if_neg (by omega), iff_true_right (.inl hsmall)]
    refine ⟨fun _ => hlow.symm, fun hlast => ?_⟩
    omega
  · rw [if_pos (by omega), or_iff_right hsmall]
    refine ⟨fun h hdata => ?_, fun hnone => ⟨fun hdata => absurd hdata hnone, fun _ => rfl⟩⟩
    have hnext := h.data hdata
    have hpos := hdata.1
    omega

/-- A table whose entries all have the next cluster 3, with a reserved bit set. -/
def reservedBitDisk : FatDisk where
  startLBA := 0
  firstFATSector := 32
  firstDataSector := 1000
  sectorsPerCluster := 1
  block := fun _ => some fun i => if i.val % 4 = 0 then 3 else if i.val % 4 = 3 then 0x10 else 0

/-- The chain is cut off there. -/
theorem fat32_next_cluster_reserved : reservedBitDisk.entry 2 = 0x10000003 ∧
    reservedBitDisk.fat32NextCluster 2 = 0 ∧
    ¬FollowsEntry (reservedBitDisk.entry 2) (reservedBitDisk.fat32NextCluster 2) := by
  have hentry : reservedBitDisk.entry 2 = 0x10000003 := by decide
  have hnext : reservedBitDisk.fat32NextCluster 2 = 0 := by decide
  refine ⟨hentry, hnext, fun h => ?_⟩
  rw [hentry, hnext] at h
  exact absurd (h.data (by decide)) (by decide)

end GarnOS
