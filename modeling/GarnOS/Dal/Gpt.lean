import GarnOS.Dal.BlockReads

/-! GUID partition tables: which drives `gpt_validate_drive` accepts, and what
`gpt_initialise_drive` makes of them. -/
namespace GarnOS
open Outcome List Nat Option

def MAX_PARTITIONS : ℕ := 128

structure Partition where
  startLBA : ℕ
  endLBA : ℕ
  attribs : ℕ
  isSystemPartition : Bool
  size : ℕ
  valid : Bool

/-- What the functions use of a `drive_t`; a drive without a read function has no blocks. -/
structure StorDrive where
  type : DriveType
  read : Option (ℕ → DiskBlock)
  isSystemDrive : Bool
  partitionCount : ℕ
  partitions : ℕ → Partition

open StorDrive

/-- The data of the buffer that `bcache_get` gives, or NULL. -/
def StorDrive.bcacheGet (d : StorDrive) (lba : ℕ) : Option DiskBlock := d.read.map fun read => read lba

/-- `strcmp` of the bytes from `off` on and a literal. -/
def DiskBlock.strcmp (b : DiskBlock) : ℕ → List UInt8 → ℤ
  | off, [] => (b.byte off).toInt8.toInt
  | off, c :: cs =>
    if b.byte off ≠ 0 ∧ c ≠ 0 ∧ b.byte off = c then b.strcmp (off + 1) cs
    else (b.byte off).toInt8.toInt - c.toInt8.toInt

namespace GptHeader

def MAGIC : List UInt8 := [0x45, 0x46, 0x49, 0x20, 0x50, 0x41, 0x52, 0x54]

def guid (b : DiskBlock) : ℕ × ℕ := (b.field 56 8, b.field 64 8)
def gptArrayStartLBA (b : DiskBlock) : ℕ := b.field 72 8
def partCount (b : DiskBlock) : ℕ := b.field 80 4
def entrySize (b : DiskBlock) : ℕ := b.field 84 4

def accepted (b : DiskBlock) : Bool :=
  b.strcmp 0 MAGIC = 0 ∨ ¬512 < entrySize b ∨ entrySize b % 128 ≠ 0 ∨ MAX_PARTITIONS < partCount b

structure Sound (b : DiskBlock) : Prop where
  magic : (List.range 8).map b.byte = MAGIC
  nonzero : entrySize b ≠ 0
  divides : entrySize b ∣ 512
  multiple : 128 ∣ entrySize b
  count : partCount b ≤ MAX_PARTITIONS

end GptHeader

open GptHeader

/-- `gpt_validate_drive`: the result, and the drive with its flag. -/
def StorDrive.gptValidateDrive (bootDiskGUID : ℕ × ℕ) (d : StorDrive) : Bool × StorDrive :=
  if d.type = .optical then (false, d)
  else (d.bcacheGet 1).elim (false, d) fun b =>
    if accepted b then
      (true, if bootDiskGUID = guid b then { d with isSystemDrive := true } else d)
    else (false, d)

structure GptEntry where
  typeGUID : ℕ × ℕ
  partGUID : ℕ × ℕ
  startLBA : ℕ
  endLBA : ℕ
  attribs : ℕ

def GptEntry.read (b : DiskBlock) (off : ℕ) : GptEntry where
  typeGUID := (b.field off 8, b.field (off + 8) 8)
  partGUID := (b.field (off + 16) 8, b.field (off + 24) 8)
  startLBA := b.field (off + 32) 8
  endLBA := b.field (off + 40) 8
  attribs := b.field (off + 48) 8

def StorDrive.freeSlot (d : StorDrive) : Option ℕ :=
  (List.range MAX_PARTITIONS).find? fun i => !(d.partitions i).valid

/-- The slot of an entry. The flag is only ever set; the same half of the GUID is compared twice. -/
def GptEntry.partition (bootPartGUID : ℕ × ℕ) (isSystemDrive : Bool) (e : GptEntry)
    (old : Partition) : Partition where
  startLBA := e.startLBA
  endLBA := e.endLBA
  attribs := e.attribs
  isSystemPartition :=
    (e.partGUID.1 = bootPartGUID.1 && e.partGUID.1 = bootPartGUID.1 && isSystemDrive) ||
      old.isSystemPartition
  size := u64 ((e.endLBA - e.startLBA) * 512)
  valid := true

def StorDrive.register (bootPartGUID : ℕ × ℕ) (e : GptEntry) (d : StorDrive) : StorDrive :=
  { d with
    partitionCount := d.partitionCount + 1
    partitions := d.freeSlot.elim d.partitions fun i =>
      Function.update d.partitions i
        (e.partition bootPartGUID d.isSystemDrive (d.partitions i)) }

def GptEntry.used (e : GptEntry) : Bool := e.typeGUID.1 ≠ 0 && e.typeGUID.2 ≠ 0

/-- Fields of 8 bytes are read from a buffer of 512. -/
def gptCheck (offs : List ℕ) : Except Fault Unit :=
  if ∀ off ∈ offs, off + 8 ≤ 512 then .ok () else .error (.overrun 512)

/-- The body of the inner loop. The message about a used entry reads its LBAs in any case. -/
def gptVisit (bootPartGUID : ℕ × ℕ) (b : DiskBlock) (off : ℕ) (d : StorDrive) :
    Except Fault StorDrive := do
  gptCheck [off]
  if b.field off 8 = 0 then return d
  else do
    gptCheck [off + 8]
    if b.field (off + 8) 8 = 0 then return d
    else do
      gptCheck (if d.freeSlot.isSome then [off + 16, off + 32, off + 40, off + 48]
        else [off + 32, off + 40])
      return d.register bootPartGUID (GptEntry.read b off)

/-- A buffer that `bcache_get` does not give is accessed through NULL. -/
def gptBlock (read : Option (ℕ → DiskBlock)) (lba : ℕ) : Except Fault DiskBlock :=
  read.elim (.error (.pageFault 0)) fun read => .ok (read lba)

def GptHeader.start (b : DiskBlock) : ℕ := if gptArrayStartLBA b = 0 then 2 else gptArrayStartLBA b

def gptInitialiseDrive (bootPartGUID : ℕ × ℕ) (d : StorDrive) : Except Fault StorDrive := do
  let read := d.read
  let header ← gptBlock read 1
  let perSector ← divide 512 (entrySize header)
  let sectors ← divide (partCount header) perSector
  forRange (fun i d => do
    let chunk ← gptBlock read ((start header + i) % 2 ^ 64)
    forRange (fun j d => gptVisit bootPartGUID chunk (j * entrySize header) d)
      0 perSector d) 0 sectors d

section Visiting
variable {boot : ℕ × ℕ} {b : DiskBlock} {off : ℕ} {d d' : StorDrive}

def StorDrive.visit (bootPartGUID : ℕ × ℕ) (d : StorDrive) (e : GptEntry) : StorDrive :=
  if e.used then d.register bootPartGUID e else d

theorem gptCheck_ok {offs : List ℕ} (h : ∀ off ∈ offs, off + 8 ≤ 512) : gptCheck offs = .ok () :=
  if_pos h

theorem StorDrive.visit_read (boot : ℕ × ℕ) (d : StorDrive) (b : DiskBlock) (off : ℕ) :
    d.visit boot (.read b off) =
      if b.field off 8 = 0 then d else if b.field (off + 8) 8 = 0 then d
      else d.register boot (.read b off) := by
  unfold visit GptEntry.used
  by_cases h0 : b.field off 8 = 0
  · rw [if_pos h0, if_neg (by simp [GptEntry.read, h0])]
  · by_cases h1 : b.field (off + 8) 8 = 0
    · rw [if_neg h0, if_pos h1, if_neg (by simp [GptEntry.read, h1])]
    · rw [if_neg h0, if_neg h1, if_pos (by simp [GptEntry.read, h0, h1])]

theorem gptVisit_of_le (h : off + 56 ≤ 512) :
    gptVisit boot b off d = .ok (d.visit boot (.read b off)) := by
  have hfields : ∀ a ∈ (if d.freeSlot.isSome then [off + 16, off + 32, off + 40, off + 48]
      else [off + 32, off + 40]), a + 8 ≤ 512 := by
    intro a ha
    split at ha <;> simp only [mem_cons, not_mem_nil, or_false] at ha <;> omega
  rw [visit_read, gptVisit, gptCheck_ok (by simpa using by omega), ok_bind,
    gptCheck_ok (by simpa using by omega), ok_bind, gptCheck_ok hfields, ok_bind]
  split
  · rfl
  · split <;> rfl

theorem gptVisit_ok (h : gptVisit boot b off d = .ok d') :
    d' = d.visit boot (.read b off) := by
  have hchecked : ∀ {offs : List ℕ} {next : Except Fault StorDrive},
      (gptCheck offs >>= fun _ => next) = .ok d' → next = .ok d' := by
    intro offs next hnext
    unfold gptCheck at hnext
    split at hnext
    · exact hnext
    · cases hnext
  rw [visit_read]
  have htype := hchecked h
  split at htype
  next h0 =>
    rw [if_pos h0]
    exact (Except.ok.inj htype).symm
  next h0 =>
    rw [if_neg h0]
    have hhalf := hchecked htype
    split at hhalf
    next h1 =>
      rw [if_pos h1]
      exact (Except.ok.inj hhalf).symm
    next h1 =>
      rw [if_neg h1]
      exact (Except.ok.inj (hchecked hhalf)).symm

end Visiting

section Table
variable {boot bootDiskGUID : ℕ × ℕ} {content : ℕ → DiskBlock} {d d' : StorDrive}

def gptPerSector (content : ℕ → DiskBlock) : ℕ := 512 / entrySize (content 1)

def gptEntry (content : ℕ → DiskBlock) (i : ℕ) : GptEntry :=
  .read (content ((start (content 1) + i / gptPerSector content) % 2 ^ 64))
    (i % gptPerSector content * entrySize (content 1))

/-- The entries that the loops reach: those of whole sectors. -/
def gptReached (content : ℕ → DiskBlock) : ℕ :=
  partCount (content 1) / gptPerSector content * gptPerSector content

def gptAfter (bootPartGUID : ℕ × ℕ) (content : ℕ → DiskBlock) (d : StorDrive) (n : ℕ) : StorDrive :=
  ((List.range n).map (gptEntry content)).foldl (visit bootPartGUID) d

theorem gptAfter_succ (n : ℕ) : gptAfter boot content d (n + 1) =
    (gptAfter boot content d n).visit boot (gptEntry content n) := by
  rw [gptAfter, range_succ, map_append, foldl_append, ← gptAfter, map_singleton,
    foldl_cons, foldl_nil]

/-- One turn of the loops, by the index of the entry. -/
def gptTurn (bootPartGUID : ℕ × ℕ) (content : ℕ → DiskBlock) (i : ℕ) :
    StorDrive → Except Fault StorDrive :=
  gptVisit bootPartGUID
    (content ((start (content 1) + i / gptPerSector content) % 2 ^ 64))
    (i % gptPerSector content * entrySize (content 1))

/-- The two loops are one over the table, if the header does not make them divide by zero. -/
theorem gptInitialiseDrive_eq (hread : d.read = some content)
    (hsize : entrySize (content 1) ≠ 0) (hper : 0 < gptPerSector content) :
    gptInitialiseDrive boot d =
      forRange (gptTurn boot content) 0 (gptReached content) d := by
  have hrows := forRange_rows (fun i j => gptVisit boot
    (content ((start (content 1) + i) % 2 ^ 64)) (j * entrySize (content 1)))
    hper 0 (partCount (content 1) / gptPerSector content) d
  rw [zero_mul] at hrows
  rw [gptInitialiseDrive, hread]
  simp only [gptBlock, elim_some, ok_bind, divide, if_neg hsize]
  rw [← gptPerSector, if_neg hper.ne', ok_bind]
  exact hrows

theorem gptTurn_ok {i : ℕ} (h : gptTurn boot content i d = .ok d') :
    d' = d.visit boot (gptEntry content i) := gptVisit_ok h

theorem gptInitialiseDrive_ok (h : gptInitialiseDrive boot d = .ok d') :
    ∃ content, d.read = some content ∧
      d' = gptAfter boot content d (gptReached content) := by
  cases hread : d.read with
  | none =>
    rw [gptInitialiseDrive, hread] at h
    cases h
  | some content =>
    have hsize : entrySize (content 1) ≠ 0 := by
      intro hzero
      rw [gptInitialiseDrive, hread] at h
      simp only [gptBlock, elim_some, ok_bind, divide, if_pos hzero] at h
      cases h
    have hper : 0 < gptPerSector content := by
      rw [pos_iff_ne_zero]
      intro hzero
      rw [gptInitialiseDrive, hread] at h
      simp only [gptBlock, elim_some, ok_bind, divide, if_neg hsize] at h
      rw [← gptPerSector, if_pos hzero] at h
      cases h
    rw [gptInitialiseDrive_eq hread hsize hper] at h
    have hloop := forRange_ok (fun i e => e = gptAfter boot content d i) h rfl
      fun i e e' _ _ he he' => by rw [gptTurn_ok he', he, gptAfter_succ]
    rw [zero_add] at hloop
    exact ⟨content, rfl, hloop⟩

theorem entry_inside {size j : ℕ} (hsize : 56 ≤ size) (hj : j < 512 / size) : j * size + 56 ≤ 512 := by
  have hend : (j + 1) * size ≤ 512 := (mul_le_mul_right size hj).trans (div_mul_le_self 512 size)
  rw [succ_mul] at hend
  omega

theorem gptInitialiseDrive_of_size (hread : d.read = some content)
    (hsize : 56 ≤ entrySize (content 1)) (hle : entrySize (content 1) ≤ 512) :
    gptInitialiseDrive boot d =
      .ok (gptAfter boot content d (gptReached content)) := by
  have hper : 0 < gptPerSector content := div_pos hle (by omega)
  have hturn : ∀ i e, 0 ≤ i → i < 0 + gptReached content → e = gptAfter boot content d i →
      Post (gptTurn boot content i e) (· = gptAfter boot content d (i + 1))
        fun _ => False := by
    intro i e _ _ he
    have hinside : i % gptPerSector content * entrySize (content 1) + 56 ≤ 512 :=
      entry_inside hsize (mod_lt i hper)
    rw [gptTurn, gptVisit_of_le hinside, post_ok, gptAfter_succ, he, gptEntry]
  have hfirst : d = gptAfter boot content d 0 := rfl
  obtain ⟨e, he, hlast⟩ := (forRange_post (fun i e => e = gptAfter boot content d i) hfirst
    hturn).returns
  rw [gptInitialiseDrive_eq hread (by omega) hper, he, hlast, zero_add]

theorem GptHeader.Sound.size {b : DiskBlock} (h : GptHeader.Sound b) :
    56 ≤ entrySize b ∧ entrySize b ≤ 512 := by
  have hpos := pos_of_ne_zero h.nonzero
  have hmultiple := le_of_dvd hpos h.multiple
  have hdivides := le_of_dvd (by decide) h.divides
  omega

theorem StorDrive.gptValidateDrive_read (d : StorDrive) :
    (d.gptValidateDrive bootDiskGUID).2.read = d.read := by
  unfold gptValidateDrive
  split
  · rfl
  · cases d.bcacheGet 1 with
    | none => rfl
    | some b =>
      rw [elim_some]
      split
      · split <;> rfl
      · rfl

theorem StorDrive.gptValidateDrive_true : (d.gptValidateDrive bootDiskGUID).1 = true ↔
    d.type ≠ .optical ∧ ∃ content, d.read = some content ∧ accepted (content 1) = true := by
  unfold gptValidateDrive bcacheGet
  by_cases htype : d.type = .optical
  · simp [htype]
  · rw [if_neg htype, and_iff_right htype]
    cases d.read with
    | none => simp
    | some content =>
      rw [map_some, elim_some]
      cases haccepted : accepted (content 1) with
      | false | true => simp [haccepted]

/-- What `gpt_validate_drive` accepts is sound, and safe to use, exactly if the header is sound or
fails all four tests: it does not have the signature, and has entries of more than 512 bytes of a
size that is a multiple of 128, and not too many of them. -/
theorem gpt_accepted_iff (bootDiskGUID bootPartGUID : ℕ × ℕ) (d : StorDrive) :
    ((d.gptValidateDrive bootDiskGUID).1 = true →
        ∃ content d', d.read = some content ∧ GptHeader.Sound (content 1) ∧
          gptInitialiseDrive bootPartGUID (d.gptValidateDrive bootDiskGUID).2 = .ok d') ↔
      ∀ content, d.type ≠ .optical → d.read = some content → GptHeader.Sound (content 1) ∨
        ((content 1).strcmp 0 GptHeader.MAGIC ≠ 0 ∧ 512 < entrySize (content 1) ∧
          entrySize (content 1) % 128 = 0 ∧
          partCount (content 1) ≤ MAX_PARTITIONS) := by
  have hrejected : ∀ b, accepted b = false ↔ b.strcmp 0 GptHeader.MAGIC ≠ 0 ∧
      512 < entrySize b ∧ entrySize b % 128 = 0 ∧
      partCount b ≤ MAX_PARTITIONS := by
    intro b
    rw [accepted, decide_eq_false_iff_not]
    simp
  simp only [← hrejected]
  constructor
  · intro h content htype hread
    cases haccepted : accepted (content 1) with
    | false => exact .inr rfl
    | true =>
      obtain ⟨content', d', hread', hsound, -⟩ :=
        h (gptValidateDrive_true.mpr ⟨htype, content, hread, haccepted⟩)
      rw [some.inj (hread.symm.trans hread')]
      exact .inl hsound
  · intro h hvalid
    obtain ⟨htype, content, hread, haccepted⟩ := gptValidateDrive_true.mp hvalid
    have hsound := (h content htype hread).resolve_right (by simp [haccepted])
    exact ⟨content, _, hread, hsound, gptInitialiseDrive_of_size
      ((gptValidateDrive_read d).trans hread) hsound.size.1 hsound.size.2⟩

end Table

/-- A drive as the drivers leave it, with the same data in each block. -/
def blankDrive (b : DiskBlock) : StorDrive :=
  ⟨.disk, some fun _ => b, false, 0, fun _ => ⟨0, 0, 0, false, 0, false⟩⟩

/-- A drive of zeros is accepted, and its entries of no size are divided by. -/
theorem gpt_accepted_zeros : ((blankDrive fun _ => 0).gptValidateDrive (1, 1)).1 = true ∧
    ¬GptHeader.Sound (fun _ => 0) ∧
    gptInitialiseDrive (1, 1) ((blankDrive fun _ => 0).gptValidateDrive (1, 1)).2 =
      .error (.panic "Divide Error" "" []) := by
  refine ⟨by decide, fun h => h.nonzero (by decide), ?_⟩
  rfl

end GarnOS
