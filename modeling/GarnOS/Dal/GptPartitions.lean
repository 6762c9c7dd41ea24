import GarnOS.Dal.Gpt

/-! The partitions that `gpt_initialise_drive` registers: which entries of the table they are, and
which of them is marked as the system partition. -/
namespace GarnOS
open Outcome List Function GptHeader

structure StorDrive.NoPartitions (d : StorDrive) : Prop where
  count : d.partitionCount = 0
  invalid : ∀ i < MAX_PARTITIONS, (d.partitions i).valid = false

/-- The slots after some entries were registered, in their order. -/
structure Registered (bootPartGUID : ℕ × ℕ) (d : StorDrive) (us : List GptEntry) (d' : StorDrive) :
    Prop where
  count : d'.partitionCount = us.length
  system : d'.isSystemDrive = d.isSystemDrive
  filled : ∀ i (h : i < us.length), i < MAX_PARTITIONS →
    d'.partitions i = us[i].partition bootPartGUID d.isSystemDrive (d.partitions i)
  free : ∀ i, us.length ≤ i → d'.partitions i = d.partitions i

section Registering
variable {boot : ℕ × ℕ} {d d' : StorDrive} {us : List GptEntry} {e : GptEntry}

theorem Registered.nil (h : d.NoPartitions) : Registered boot d [] d :=
  ⟨h.count, rfl, fun _ hi => absurd hi (Nat.not_lt_zero _), fun _ _ => rfl⟩

theorem Registered.freeSlot (hnone : d.NoPartitions) (h : Registered boot d us d')
    (hlt : us.length < MAX_PARTITIONS) : d'.freeSlot = some us.length := by
  rw [StorDrive.freeSlot, find?_range_eq_some]
  refine ⟨?_, mem_range.mpr hlt, fun j hj => ?_⟩
  · rw [h.free _ le_rfl, hnone.invalid _ hlt]
    rfl
  · rw [h.filled j hj (hj.trans hlt)]
    rfl

theorem Registered.noSlot (h : Registered boot d us d')
    (hge : MAX_PARTITIONS ≤ us.length) : d'.freeSlot = none := by
  rw [StorDrive.freeSlot, find?_eq_none]
  intro i hi
  rw [mem_range] at hi
  rw [h.filled i (by omega) hi]
  simp [GptEntry.partition]

theorem Registered.register (hnone : d.NoPartitions) (h : Registered boot d us d')
    (e : GptEntry) : Registered boot d (us ++ [e]) (d'.register boot e) := by
  have hlength : (us ++ [e]).length = us.length + 1 := by
    rw [length_append, length_singleton]
  rcases Nat.lt_or_ge us.length MAX_PARTITIONS with hlt | hge
  · have hslot := h.freeSlot hnone hlt
    refine ⟨?_, h.system, fun i hi hmax => ?_, fun i hi => ?_⟩
    · rw [hlength, ← h.count]
      rfl
    · rw [StorDrive.register, hslot]
      show update d'.partitions us.length _ i = _
      rcases Nat.lt_or_ge i us.length with hbefore | hlast
      · rw [update_of_ne (by omega), h.filled i hbefore hmax, getElem_append_left hbefore]
      · obtain rfl : i = us.length := by omega
        rw [update_self, h.system, h.free _ le_rfl, getElem_concat_length rfl]
    · rw [StorDrive.register, hslot]
      show update d'.partitions us.length _ i = _
      rw [update_of_ne (by omega), h.free i (by omega)]
  · have hslot := h.noSlot hge
    have hsame : (d'.register boot e).partitions = d'.partitions := by
      rw [StorDrive.register, hslot]
      rfl
    refine ⟨?_, h.system, fun i hi hmax => ?_, fun i hi => ?_⟩
    · rw [hlength, ← h.count]
      rfl
    · rw [hsame, h.filled i (by omega) hmax, getElem_append_left (by omega)]
    · rw [hsame, h.free i (by omega)]

theorem registered_foldl (hnone : d.NoPartitions) (us : List GptEntry) :
    Registered boot d us (us.foldl (fun d e => d.register boot e) d) := by
  induction us using reverseRecOn with
  | nil => exact .nil hnone
  | append_singleton us e ih =>
    rw [foldl_append]
    exact ih.register hnone e

end Registering

section Table
variable {bootPartGUID : ℕ × ℕ} {content : ℕ → DiskBlock} {d d' : StorDrive}

def usedIndices (content : ℕ → DiskBlock) : List ℕ :=
  (List.range (gptReached content)).filter fun i => (gptEntry content i).used

def typedIndices (content : ℕ → DiskBlock) : List ℕ :=
  (List.range (partCount (content 1))).filter fun i =>
    (gptEntry content i).typeGUID ≠ (0, 0)

def gptUsed (content : ℕ → DiskBlock) : List GptEntry := (usedIndices content).map (gptEntry content)

def gptTyped (content : ℕ → DiskBlock) : List GptEntry := (typedIndices content).map (gptEntry content)

theorem gptAfter_registered (hnone : d.NoPartitions) :
    Registered bootPartGUID d (gptUsed content)
      (gptAfter bootPartGUID content d (gptReached content)) := by
  have hfold := @registered_foldl bootPartGUID d hnone (gptUsed content)
  rw [gptUsed, foldl_map, usedIndices, foldl_filter] at hfold
  rw [gptAfter, foldl_map]
  exact hfold

/-- Every entry with a type has a partition with its data, in the order of the table. -/
structure Lossless (content : ℕ → DiskBlock) (d : StorDrive) : Prop where
  count : d.partitionCount = (gptTyped content).length
  entries : ∀ i (h : i < (gptTyped content).length),
    (d.partitions i).startLBA = (gptTyped content)[i].startLBA ∧
      (d.partitions i).endLBA = (gptTyped content)[i].endLBA ∧
      (d.partitions i).attribs = (gptTyped content)[i].attribs

theorem gptReached_le (content : ℕ → DiskBlock) :
    gptReached content ≤ partCount (content 1) := Nat.div_mul_le_self _ _

theorem GptEntry.used_typed {e : GptEntry} (h : e.used = true) : e.typeGUID ≠ (0, 0) := by
  rw [GptEntry.used, Bool.and_eq_true, decide_eq_true_eq] at h
  intro hzero
  exact h.1 (congrArg Prod.fst hzero)

theorem usedIndices_sublist (content : ℕ → DiskBlock) :
    (usedIndices content).Sublist (typedIndices content) := by
  refine List.Sublist.trans (monotone_filter_right _ fun i hi => ?_)
    ((range_sublist.mpr (gptReached_le content)).filter _)
  exact decide_eq_true (GptEntry.used_typed hi)

/-- The entries with a type have both halves of it, and are reached. -/
def AllReached (content : ℕ → DiskBlock) : Prop :=
  ∀ i < partCount (content 1), (gptEntry content i).typeGUID ≠ (0, 0) →
    i < gptReached content ∧ (gptEntry content i).used = true

theorem allReached_of_length (h : (gptUsed content).length = (gptTyped content).length) :
    AllReached content := by
  intro i hi htype
  rw [gptUsed, gptTyped, length_map, length_map] at h
  have hmem : i ∈ typedIndices content :=
    mem_filter.mpr ⟨mem_range.mpr hi, decide_eq_true htype⟩
  rw [← (usedIndices_sublist content).eq_of_length h, usedIndices, mem_filter,
    mem_range] at hmem
  exact hmem

theorem AllReached.used_eq (h : AllReached content) : gptUsed content = gptTyped content := by
  obtain ⟨k, hk⟩ := Nat.exists_eq_add_of_le (gptReached_le content)
  have hrest : ((range k).map (gptReached content + ·)).filter
      (fun i => decide ((gptEntry content i).typeGUID ≠ (0, 0))) = [] := by
    rw [filter_eq_nil_iff]
    intro i hi htype
    obtain ⟨j, hj, rfl⟩ := mem_map.mp hi
    have hbound := h (gptReached content + j) (by rw [hk]; simpa using hj) (of_decide_eq_true htype)
    omega
  rw [gptUsed, gptTyped, typedIndices, hk, range_add, filter_append, hrest,
    append_nil, usedIndices]
  refine congrArg (map (gptEntry content)) (filter_congr fun i hi => ?_)
  rw [mem_range] at hi
  rw [Bool.eq_iff_iff, decide_eq_true_eq]
  exact ⟨GptEntry.used_typed, fun htype => (h i (hi.trans_le (gptReached_le content)) htype).2⟩

/-- No partition is lost exactly if each entry with a type has both halves of it set, and is in a
sector that the number of entries fills. -/
theorem gpt_lossless_iff (hread : d.read = some content)
    (hsize : entrySize (content 1) ∈ [128, 256, 512])
    (hcount : partCount (content 1) ≤ MAX_PARTITIONS) (hnone : d.NoPartitions) :
    (∃ d', gptInitialiseDrive bootPartGUID d = .ok d' ∧ Lossless content d') ↔
      AllReached content := by
  have hbounds : 56 ≤ entrySize (content 1) ∧ entrySize (content 1) ≤ 512 := by
    simp only [mem_cons, not_mem_nil, or_false] at hsize
    omega
  have hregistered := @gptAfter_registered bootPartGUID content d hnone
  rw [gptInitialiseDrive_of_size hread hbounds.1 hbounds.2]
  constructor
  · rintro ⟨d', hd', hlossless⟩
    cases hd'
    exact allReached_of_length (hregistered.count.symm.trans hlossless.count)
  · intro h
    rw [h.used_eq] at hregistered
    refine ⟨_, rfl, hregistered.count, fun i hi => ?_⟩
    have htyped : (gptTyped content).length ≤ partCount (content 1) := by
      rw [gptTyped, length_map]
      exact (length_filter_le _ _).trans (by rw [length_range])
    rw [hregistered.filled i hi (by omega)]
    exact ⟨rfl, rfl, rfl⟩

def FlagRight (bootPartGUID : ℕ × ℕ) (isSystemDrive : Bool) (e : GptEntry) (p : Partition) : Prop :=
  p.isSystemPartition = true ↔ isSystemDrive = true ∧ e.partGUID = bootPartGUID

/-- The size of a partition is that of its blocks, the last one included. -/
def SizeRight (e : GptEntry) (p : Partition) : Prop :=
  (p.size : ℤ) = (e.endLBA - e.startLBA + 1) * 512

theorem not_sizeRight (isSystemDrive : Bool) (e : GptEntry) (old : Partition) :
    ¬SizeRight e (e.partition bootPartGUID isSystemDrive old) := by
  intro h
  have hsize : ((u64 ((e.endLBA - e.startLBA) * 512) : ℕ) : ℤ) = (e.endLBA - e.startLBA + 1) * 512 := h
  rw [u64] at hsize
  omega

/-- The flag is wrong for an entry that has the first half of the GUID only. -/
theorem flagRight_iff {isSystemDrive : Bool} {e : GptEntry} {old : Partition}
    (hold : old.isSystemPartition = false) :
    FlagRight bootPartGUID isSystemDrive e (e.partition bootPartGUID isSystemDrive old) ↔
      ¬(isSystemDrive = true ∧ e.partGUID.1 = bootPartGUID.1 ∧ e.partGUID.2 ≠ bootPartGUID.2) := by
  rw [FlagRight, GptEntry.partition, Prod.ext_iff]
  simp only [hold, Bool.or_false, Bool.and_eq_true, decide_eq_true_eq, and_self]
  tauto

/-- The partitions of a drive are identified and have their sizes exactly if there are none; the
flags alone are right exactly if, on the system drive, no entry agrees with the GUID of the boot
partition in its first half only. -/
theorem gpt_system_iff (hread : d.read = some content) (hnone : d.NoPartitions)
    (hunmarked : ∀ i < MAX_PARTITIONS, (d.partitions i).isSystemPartition = false)
    (h : gptInitialiseDrive bootPartGUID d = .ok d') :
    ((∀ i (hi : i < (gptUsed content).length), i < MAX_PARTITIONS →
          FlagRight bootPartGUID d.isSystemDrive (gptUsed content)[i] (d'.partitions i) ∧
            SizeRight (gptUsed content)[i] (d'.partitions i)) ↔
        gptUsed content = []) ∧
      ((∀ i (hi : i < (gptUsed content).length), i < MAX_PARTITIONS →
          FlagRight bootPartGUID d.isSystemDrive (gptUsed content)[i] (d'.partitions i)) ↔
        ∀ i (hi : i < (gptUsed content).length), i < MAX_PARTITIONS →
          ¬(d.isSystemDrive = true ∧ (gptUsed content)[i].partGUID.1 = bootPartGUID.1 ∧
            (gptUsed content)[i].partGUID.2 ≠ bootPartGUID.2)) := by
  obtain ⟨content', hread', rfl⟩ := gptInitialiseDrive_ok h
  cases hread'.symm.trans hread
  have hregistered := @gptAfter_registered bootPartGUID content d hnone
  refine ⟨⟨fun hall => ?_, fun hnil i hi => ?_⟩, ?_⟩
  · by_contra hne
    have hpos : 0 < (gptUsed content).length := length_pos_of_ne_nil hne
    have hfirst := (hall 0 hpos (by decide)).2
    rw [hregistered.filled 0 hpos (by decide)] at hfirst
    exact not_sizeRight _ _ _ hfirst
  · rw [hnil] at hi
    exact absurd hi (Nat.not_lt_zero i)
  · refine forall_congr' fun i => forall_congr' fun hi => forall_congr' fun hmax => ?_
    rw [hregistered.filled i hi hmax]
    exact flagRight_iff (hunmarked i hmax)

end Table

/-- A drive whose header has entries of 128 bytes; the first entry of each sector is used, for one
block, with two halves of a GUID. -/
def sampleTable (partCount : UInt8) : ℕ → DiskBlock := fun lba i =>
  if lba = 1 then (if i = 80 then partCount else if i = 84 then 128 else 0)
  else if i = 0 then 1 else if i = 8 then 1 else if i = 16 then 7 else if i = 24 then 9
  else if i = 32 then 40 else if i = 40 then 40 else 0

def sampleDrive (partCount : UInt8) : StorDrive :=
  ⟨.disk, some (sampleTable partCount), true, 0, fun _ => ⟨0, 0, 0, false, 0, false⟩⟩

theorem sampleDrive_noPartitions (partCount : UInt8) : (sampleDrive partCount).NoPartitions :=
  ⟨rfl, fun _ _ => rfl⟩

theorem sampleDrive_initialise {bootPartGUID : ℕ × ℕ} {partCount : UInt8} :
    gptInitialiseDrive bootPartGUID (sampleDrive partCount) = .ok (gptAfter bootPartGUID
      (sampleTable partCount) (sampleDrive partCount) (gptReached (sampleTable partCount))) :=
  have hsize : entrySize (sampleTable partCount 1) = 128 := by rfl
  gptInitialiseDrive_of_size rfl (by omega) (by omega)

theorem gpt_lossless_four : ∃ d', gptInitialiseDrive (7, 9) (sampleDrive 4) = .ok d' ∧
    Lossless (sampleTable 4) d' := by
  have hall : AllReached (sampleTable 4) := by
    unfold AllReached
    decide
  exact (gpt_lossless_iff rfl (by decide) (by decide) (sampleDrive_noPartitions 4)).mpr hall

/-- With a fifth entry, in a sector of its own, that one is lost. -/
theorem gpt_lossless_five : entrySize (sampleTable 5 1) = 128 ∧
    partCount (sampleTable 5 1) = 5 ∧ (gptTyped (sampleTable 5)).length = 2 ∧
    ∃ d', gptInitialiseDrive (7, 9) (sampleDrive 5) = .ok d' ∧ d'.partitionCount = 1 ∧
      ¬Lossless (sampleTable 5) d' := by
  have htyped : (gptTyped (sampleTable 5)).length = 2 := by decide
  have hcount : (gptAfter (7, 9) (sampleTable 5) (sampleDrive 5)
      (gptReached (sampleTable 5))).partitionCount = 1 :=
    (gptAfter_registered (sampleDrive_noPartitions 5)).count.trans (by decide)
  refine ⟨by decide, by decide, htyped, _, sampleDrive_initialise, hcount, fun h => ?_⟩
  have hsame := h.count
  rw [hcount, htyped] at hsame
  cases hsame

/-- A drive whose used entries have the GUID of the boot partition. -/
theorem gpt_system_four : ∃ d', gptInitialiseDrive (7, 9) (sampleDrive 4) = .ok d' ∧
    ∀ i (hi : i < (gptUsed (sampleTable 4)).length), i < MAX_PARTITIONS →
      FlagRight (7, 9) true (gptUsed (sampleTable 4))[i] (d'.partitions i) := by
  have hguid : ∀ e ∈ gptUsed (sampleTable 4), e.partGUID.2 = 9 := by decide
  refine ⟨_, sampleDrive_initialise, (gpt_system_iff rfl (sampleDrive_noPartitions 4)
    (fun _ _ => rfl) sampleDrive_initialise).2.mpr fun i hi _ hhalf => ?_⟩
  exact hhalf.2.2 (hguid _ (getElem_mem hi))

/-- An entry with another second half is marked as the system partition, and its one block has the
size 0. -/
theorem gpt_system_half : (gptUsed (sampleTable 4)).map GptEntry.partGUID = [(7, 9)] ∧
    ∃ d', gptInitialiseDrive (7, 8) (sampleDrive 4) = .ok d' ∧
      (d'.partitions 0).isSystemPartition = true ∧ (d'.partitions 0).startLBA = 40 ∧
      (d'.partitions 0).endLBA = 40 ∧ (d'.partitions 0).size = 0 := by
  have hfirst := (@gptAfter_registered (7, 8) (sampleTable 4) _ (sampleDrive_noPartitions 4)).filled 0
    (by decide) (by decide)
  refine ⟨by decide, _, sampleDrive_initialise, ?_⟩
  rw [hfirst]
  decide

end GarnOS
