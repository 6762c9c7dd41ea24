import GarnOS.Mem.PmmAlloc

/-! Page-table entries as packed 64-bit words, and tables of 512 of them in physical frames. -/
namespace GarnOS
open ByteMemory BitVec

/-- The packed bit-field structure `page_table_entry_t`, from bit 0 to bit 63. -/
structure PageTableEntry where
  present : Bool
  readWrite : Bool
  userSupervisor : Bool
  writeThrough : Bool
  cacheDisable : Bool
  accessed : Bool
  avl0 : Bool
  pageSize : Bool
  avl1 : BitVec 4
  addr : BitVec 51
  nx : Bool
  deriving DecidableEq, Repr

namespace PageTableEntry

def encode (e : PageTableEntry) : BitVec 64 :=
  ofBool e.nx ++ e.addr ++ e.avl1 ++ ofBool e.pageSize ++ ofBool e.avl0 ++
    ofBool e.accessed ++ ofBool e.cacheDisable ++ ofBool e.writeThrough ++
    ofBool e.userSupervisor ++ ofBool e.readWrite ++ ofBool e.present

def decode (w : BitVec 64) : PageTableEntry where
  present := w.getLsbD 0
  readWrite := w.getLsbD 1
  userSupervisor := w.getLsbD 2
  writeThrough := w.getLsbD 3
  cacheDisable := w.getLsbD 4
  accessed := w.getLsbD 5
  avl0 := w.getLsbD 6
  pageSize := w.getLsbD 7
  avl1 := w.extractLsb' 8 4
  addr := w.extractLsb' 12 51
  nx := w.getLsbD 63

def empty : PageTableEntry := decode 0

/-- The frame number an entry points to. Frames of the allocator stay below `2 ^ 39`, so that the
shifts `addr << 12` of the source lose nothing of them, in 64-bit or in 51-bit arithmetic. -/
def frame (e : PageTableEntry) : ℕ := e.addr.toNat

def flagBits (e : PageTableEntry) : PageTableEntry := { e with addr := 0 }

@[simp] theorem decode_encode (e : PageTableEntry) : decode (encode e) = e := by
  obtain ⟨b0, b1, b2, b3, b4, b5, b6, b7, avl1, addr, nx⟩ := e
  simp only [decode, mk.injEq]
  refine ⟨?_, ?_, ?_, ?_, ?_, ?_, ?_, ?_, ?_, ?_, ?_⟩
  case refine_9 =>
    apply eq_of_getLsbD_eq
    intro i hi
    simp only [encode, getLsbD_extractLsb', getLsbD_append]
    simp [hi, show ¬ 8 + i < 1 by omega]
  case refine_10 =>
    apply eq_of_getLsbD_eq
    intro i hi
    simp only [encode, getLsbD_extractLsb', getLsbD_append]
    simp [hi, show ¬ 12 + i < 1 by omega]
  all_goals
    simp only [encode, getLsbD_append]
    simp

@[simp] theorem empty_present : empty.present = false := rfl

@[simp] theorem empty_addr : empty.addr = 0 := rfl

end PageTableEntry

open PageTableEntry

/-- Physical address of entry `i` of the table in frame `t`. -/
def entryAddr (t i : ℕ) : ℕ := t * 4096 + 8 * i

def readEntry (m : Mem) (t i : ℕ) : PageTableEntry := decode (word m (entryAddr t i))

def writeEntry (m : Mem) (t i : ℕ) (e : PageTableEntry) : Mem :=
  setWord m (entryAddr t i) (encode e)

/-- The two memories hold the same 4096 bytes in frame `f`. -/
def FrameEq (m m' : Mem) (f : ℕ) : Prop := EqOn m m' (f * 4096) 4096

section Frames
variable {m m' m'' : Mem} {t t' f i i' : ℕ} {e : PageTableEntry}

theorem FrameEq.refl (m : Mem) (f : ℕ) : FrameEq m m f := EqOn.refl m _ _

theorem FrameEq.symm (h : FrameEq m m' f) : FrameEq m' m f := EqOn.symm h

theorem FrameEq.trans (h : FrameEq m m' f) (h' : FrameEq m' m'' f) : FrameEq m m'' f :=
  EqOn.trans h h'

theorem readEntry_congr (h : FrameEq m m' t) (hi : i < 512) :
    readEntry m t i = readEntry m' t i := by
  unfold readEntry
  rw [word_congr (EqOn.mono h (by unfold entryAddr; omega) (by unfold entryAddr; omega))]

@[simp] theorem readEntry_writeEntry (m : Mem) (t i : ℕ) (e : PageTableEntry) :
    readEntry (writeEntry m t i e) t i = e := by
  simp [readEntry, writeEntry]

theorem readEntry_writeEntry_ne (hi : i < 512) (hi' : i' < 512) (h : t' ≠ t ∨ i' ≠ i) :
    readEntry (writeEntry m t i e) t' i' = readEntry m t' i' := by
  unfold readEntry writeEntry entryAddr
  rw [word_setWord_of_disjoint]
  omega

theorem writeEntry_frameEq (hi : i < 512) (h : f ≠ t) : FrameEq (writeEntry m t i e) m f := by
  apply setWord_eqOn
  unfold entryAddr
  omega

theorem fill_frameEq (c : BitVec 8) (h : f ≠ t) : FrameEq (fill m (t * 4096) 4096 c) m f := by
  apply fill_eqOn
  omega

theorem readEntry_fill_zero (m : Mem) (hi : i < 512) :
    readEntry (fill m (t * 4096) 4096 0) t i = empty := by
  unfold readEntry entryAddr
  rw [word_fill_zero m (by omega) (by omega)]
  rfl

theorem copy_frameEq (h : f ≠ t) : FrameEq (copy m (t * 4096) (t' * 4096) 4096) m f := by
  apply copy_eqOn
  omega

theorem copy_frame_byte {k : ℕ} (hk : k < 4096) :
    copy m (t * 4096) (t' * 4096) 4096 (t * 4096 + k) = m (t' * 4096 + k) := by
  rw [copy_in m (by omega) (by omega), Nat.add_sub_cancel_left]

end Frames
end GarnOS
