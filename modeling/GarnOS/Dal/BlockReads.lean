import GarnOS.Dal.Bcache
import GarnOS.Library.LittleEndian

/-! What the callers of `bcache_get` get for a block that has to be loaded: the data that the drive
leaves in the buffer, and its errors. -/
namespace GarnOS
open Outcome

section Loading
variable {δ : Type} {c c' : BCache δ} {drive block : ℕ} {i : BufId}

/-- The drive's read function on a block, with the buffer as it is before: the status that it
returns and the buffer then. -/
def Drive.readBlock (d : Drive δ) (block : ℕ) (old : δ) : Option (ℤ × δ) :=
  d.read.map fun read => read d.content block old

/-- `bcache_get` has to load the block, and takes this buffer for it. -/
def BCache.Loads (c : BCache δ) (drive block : ℕ) (i : BufId) : Prop :=
  bcacheSearch c (isBlock drive block) BCACHE_BUF_COUNT c.head = .ok none ∧
    bcacheSearch c isFreeBuf BCACHE_BUF_COUNT c.head = .ok (some i)

/-- The buffer is free and invalid again, and nothing else has changed. -/
structure GivenUp (c c' : BCache δ) (i : BufId) : Prop where
  free : (c'.buf i).refCount = 0
  invalid : (c'.buf i).valid = false
  others : ∀ j, j ≠ i → c'.buf j = c.buf j
  head : c'.head = c.head
  tail : c'.tail = c.tail
  drives : c'.drives = c.drives

/-- A buffer is returned only if it was read, with what the read delivered. A read that is missing
or fails gives NULL. -/
structure ErrorsReach (c : BCache δ) (drive block : ℕ) (i : BufId) (r : Option BufId)
    (c' : BCache δ) : Prop where
  fresh : ∀ j, r = some j →
    (c.drives drive).readBlock block (c.buf i).data = some (0, (c'.buf j).data)
  failed : (∀ data, (c.drives drive).readBlock block (c.buf i).data ≠ some (0, data)) →
    r = none ∧ GivenUp c c' i

/-- The claimed buffer with the data that the drive leaves in it. -/
def loadBuf (c : BCache δ) (drive block : ℕ) (i : BufId) (data : δ) : BCache δ :=
  c.setBuf i { claimBuf drive block (c.buf i) with data := data }

def giveUpBuf (c : BCache δ) (drive block : ℕ) (i : BufId) : BCache δ :=
  c.setBuf i { claimBuf drive block (c.buf i) with refCount := 0, valid := false }

/-- The status of the read decides nothing: a missing function is the only error. -/
theorem BCache.Loads.get (h : c.Loads drive block i) : bcacheGet c drive block = .ok
    (((c.drives drive).readBlock block (c.buf i).data).elim (none, giveUpBuf c drive block i)
      fun p => (some i, loadBuf c drive block i p.2)) := by
  unfold bcacheGet Drive.readBlock
  rw [h.1, h.2]
  simp only [ok_bind, bcacheRead_claim]
  cases (c.drives drive).read with
  | none =>
    simp only [ok_bind, setBuf_self, setBuf_setBuf, giveUpBuf]
    rfl
  | some read => rfl

theorem giveUpBuf_givenUp (c : BCache δ) (drive block : ℕ) (i : BufId) :
    GivenUp c (giveUpBuf c drive block i) i where
  free := by simp [giveUpBuf]
  invalid := by simp [giveUpBuf]
  others := fun j hj => setBuf_of_ne hj
  head := rfl
  tail := rfl
  drives := rfl

/-- Errors reach the callers of `bcache_get` exactly if no read function that there is reports
one. -/
theorem bcache_errors_iff (c : BCache δ) (drive block : ℕ) :
    (∀ i, c.Loads drive block i → ∃ r c', bcacheGet c drive block = .ok (r, c') ∧
        ErrorsReach c drive block i r c') ↔
      ∀ i, c.Loads drive block i → ∀ status data,
        (c.drives drive).readBlock block (c.buf i).data = some (status, data) → status = 0 := by
  constructor
  · intro h i hi status data hread
    obtain ⟨r, c', hget, hreach⟩ := h i hi
    rw [hi.get, hread] at hget
    cases hget
    have hfresh := hreach.fresh i rfl
    rw [hread] at hfresh
    exact congrArg Prod.fst (Option.some.inj hfresh)
  · intro h i hi
    have hget := hi.get
    cases hread : (c.drives drive).readBlock block (c.buf i).data with
    | none =>
      rw [hread] at hget
      refine ⟨none, giveUpBuf c drive block i, hget, ?_, ?_⟩
      · intro j hj
        cases hj
      · intro _
        exact ⟨rfl, giveUpBuf_givenUp c drive block i⟩
    | some p =>
      obtain ⟨status, data⟩ := p
      obtain rfl := h i hi status data hread
      rw [hread] at hget
      refine ⟨some i, loadBuf c drive block i data, hget, ?_, ?_⟩
      · intro j hj
        cases hj
        rw [hread, loadBuf, setBuf_self]
      · intro hfail
        exact absurd hread (hfail data)

end Loading

abbrev DiskBlock := Fin 512 → UInt8

/-- For the literals that index a block. -/
instance neZero_diskBlock : NeZero 512 := ⟨by decide⟩

/-- A field of a structure in a block, by its offset and its size. -/
def DiskBlock.field (b : DiskBlock) (off n : ℕ) : ℕ :=
  LittleEndian.number (fun i => b (Fin.ofNat 512 i)) off n

theorem DiskBlock.field_lt (b : DiskBlock) (off n : ℕ) : b.field off n < 256 ^ n :=
  LittleEndian.number_lt _ off n

def DiskBlock.byte (b : DiskBlock) (i : ℕ) : UInt8 := b (Fin.ofNat 512 i)

/-- `strncmp` of the bytes from `off` on and a literal. -/
def DiskBlock.strncmp (b : DiskBlock) : ℕ → ℕ → List UInt8 → ℤ
  | 0, _, _ => 0
  | n + 1, off, s =>
    if b.byte off ≠ 0 ∧ s.headD 0 ≠ 0 ∧ b.byte off = s.headD 0 then b.strncmp n (off + 1) s.tail
    else (b.byte off).toInt8.toInt - (s.headD 0).toInt8.toInt

inductive DriveType where
  | undefined | disk | optical | floppy
  deriving DecidableEq, Repr

/-- The transfer of `ide_ata_read`, for one block: the data port is read unless `ide_poll` reports
an error. -/
def ideAtaRead (idePoll : ℕ → UInt8) (content : ℕ → DiskBlock) (block : ℕ) (buf : DiskBlock) :
    ℤ × DiskBlock :=
  if idePoll block ≠ 0 then (-1, buf) else (0, content block)

def badBlockDrive : Drive DiskBlock where
  content := fun _ _ => 0xAB
  read := some (ideAtaRead fun block => if block = 7 then 1 else 0)
  write := none

/-- Its block 7 is served from the buffer as it was, without an error. -/
theorem bcache_errors_badBlock :
    let c := bcacheInit (fun _ => 0) fun _ => badBlockDrive
    c.Loads 0 7 0 ∧ (c.drives 0).readBlock 7 (c.buf 0).data = some (-1, fun _ => 0) ∧
      ∃ c', bcacheGet c 0 7 = .ok (some 0, c') ∧ ¬ErrorsReach c 0 7 0 (some 0) c' := by
  refine ⟨⟨rfl, rfl⟩, rfl, _, rfl, fun h => ?_⟩
  have hstatus : some (-1) = some (0 : ℤ) := congrArg (Option.map Prod.fst) (h.fresh 0 rfl)
  exact absurd hstatus (by decide)

end GarnOS
