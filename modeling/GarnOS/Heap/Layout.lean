import GarnOS.Heap.Kheap
import GarnOS.Library.BlockList

/-! How a list of blocks lies in memory: each header holds its block's size, its flag and the
pointers to its neighbours. -/
namespace GarnOS
open ByteMemory BlockList

def HeaderOnly (a : ℕ) (m m' : Mem) : Prop := ∀ x, x < a ∨ a + 32 ≤ x → m' x = m x

section Headers
variable {m m' : Mem} {a b v n : ℕ}

theorem readHeader_congr (h : EqOn m m' a 32) : readHeader m a = readHeader m' a := by
  have hword : ∀ k, k + 8 ≤ 32 → word m (a + k) = word m' (a + k) := fun k hk =>
    word_congr (h.mono (by omega) (by omega))
  unfold readHeader
  rw [hword 16 (by omega), hword 24 (by omega), h (a + 8) (by omega) (by omega)]
  have h0 := hword 0 (by omega)
  rw [Nat.add_zero] at h0
  rw [h0]

theorem HeaderOnly.readHeader (h : HeaderOnly a m m') (hab : a + 32 ≤ b ∨ b + 32 ≤ a) :
    readHeader m' b = readHeader m b :=
  readHeader_congr fun x h1 h2 => h x (by omega)

theorem setSize_headerOnly (m : Mem) (a v : ℕ) : HeaderOnly a m (setSize m a v) :=
  fun x hx => setWord_eqOn m _ (k := 1) (b := x) (by omega) x le_rfl (by omega)

theorem setNext_headerOnly (m : Mem) (a v : ℕ) : HeaderOnly a m (setNext m a v) :=
  fun x hx => setWord_eqOn m _ (k := 1) (b := x) (by omega) x le_rfl (by omega)

theorem setPrev_headerOnly (m : Mem) (a v : ℕ) : HeaderOnly a m (setPrev m a v) :=
  fun x hx => setWord_eqOn m _ (k := 1) (b := x) (by omega) x le_rfl (by omega)

theorem setFlags_headerOnly (m : Mem) (a : ℕ) (f : BitVec 8) : HeaderOnly a m (setFlags m a f) := by
  intro x hx
  have hne : x ≠ a + 8 := by omega
  exact Function.update_of_ne hne _ _

theorem memset_headerOnly (m : Mem) (a : ℕ) (c : BitVec 8) : HeaderOnly a m (memset m a c 32) := by
  intro x hx
  rw [memset_eq_fill]
  exact if_neg (by omega)

theorem setWord_apart (m : Mem) {a b : ℕ} (w : BitVec 64) (h : b + 1 ≤ a ∨ a + 8 ≤ b) :
    setWord m a w b = m b :=
  setWord_eqOn m w (k := 1) (by omega) b le_rfl (by omega)

@[simp] theorem readHeader_setSize (m : Mem) (a v : ℕ) :
    readHeader (setSize m a v) a = { readHeader m a with size := v % 2 ^ 64 } := by
  unfold readHeader setSize
  rw [word_setWord, word_setWord_of_disjoint _ _ (by omega),
    word_setWord_of_disjoint _ _ (by omega),
    setWord_apart _ _ (by omega), BitVec.toNat_ofNat]

@[simp] theorem readHeader_setNext (m : Mem) (a v : ℕ) :
    readHeader (setNext m a v) a = { readHeader m a with next := v % 2 ^ 64 } := by
  unfold readHeader setNext
  rw [word_setWord, word_setWord_of_disjoint _ _ (by omega),
    word_setWord_of_disjoint _ _ (by omega),
    setWord_apart _ _ (by omega), BitVec.toNat_ofNat]

@[simp] theorem readHeader_setPrev (m : Mem) (a v : ℕ) :
    readHeader (setPrev m a v) a = { readHeader m a with prev := v % 2 ^ 64 } := by
  unfold readHeader setPrev
  rw [word_setWord, word_setWord_of_disjoint _ _ (by omega),
    word_setWord_of_disjoint _ _ (by omega),
    setWord_apart _ _ (by omega), BitVec.toNat_ofNat]

@[simp] theorem readHeader_setFlags (m : Mem) (a : ℕ) (f : BitVec 8) :
    readHeader (setFlags m a f) a = { readHeader m a with flags := f } := by
  have hword : ∀ b, b + 8 ≤ a + 8 ∨ a + 8 + 1 ≤ b → word (setFlags m a f) b = word m b := by
    intro b hb
    apply word_congr
    intro x h1 h2
    have hne : x ≠ a + 8 := by omega
    exact Function.update_of_ne hne _ _
  unfold readHeader
  rw [hword a (by omega), hword (a + 16) (by omega), hword (a + 24) (by omega)]
  simp [setFlags]

end Headers

def flagByte (free : Bool) : BitVec 8 := if free then KHEAP_FLAGS_FREE else 0

def Hhdm.ptr (hhdm : Hhdm) (b : Block) : ℕ := b.addr + hhdm.base

section Segments
variable (hhdm : Hhdm)

/-- The pointer to the first block of a list, or what comes after it. -/
def headPtr (next : ℕ) : List Block → ℕ
  | [] => next
  | b :: _ => hhdm.ptr b

/-- The pointer to the last block of a list, or what comes before it. -/
def lastPtr (prev : ℕ) : List Block → ℕ
  | [] => prev
  | b :: bs => lastPtr (hhdm.ptr b) bs

/-- The header of `b`, between the blocks at `prev` and `next`. -/
def nodeHeader (prev next : ℕ) (b : Block) : Header := ⟨b.size, flagByte b.free, next, prev⟩

/-- The blocks lie in memory, linked in order, between `prev` and `next`. -/
def Segment (m : Mem) (next : ℕ) : ℕ → List Block → Prop
  | _, [] => True
  | prev, b :: bs =>
    readHeader m b.addr = nodeHeader prev (headPtr hhdm next bs) b ∧ Segment m next (hhdm.ptr b) bs

end Segments

section Segments
variable {hhdm : Hhdm} {m m' : Mem} {prev next prev' : ℕ} {b : Block} {bs cs : List Block}

@[simp] theorem headPtr_nil : headPtr hhdm next [] = next := rfl

@[simp] theorem headPtr_cons : headPtr hhdm next (b :: bs) = hhdm.ptr b := rfl

theorem headPtr_append : headPtr hhdm next (bs ++ cs) = headPtr hhdm (headPtr hhdm next cs) bs := by
  cases bs with
  | nil | cons b bs => rfl

@[simp] theorem lastPtr_append_cons :
    lastPtr hhdm prev (bs ++ b :: cs) = lastPtr hhdm (hhdm.ptr b) cs := by
  induction bs generalizing prev with
  | nil => rfl
  | cons c bs ih => exact ih

theorem lastPtr_append :
    lastPtr hhdm prev (bs ++ cs) = lastPtr hhdm (lastPtr hhdm prev bs) cs := by
  induction bs generalizing prev with
  | nil => rfl
  | cons b bs ih => exact ih

theorem lastPtr_mem (hhdm : Hhdm) (h : bs ≠ []) : ∃ b ∈ bs, ∀ q,
    lastPtr hhdm q bs = hhdm.ptr b := by
  induction bs with
  | nil => exact absurd rfl h
  | cons b bs ih =>
    cases bs with
    | nil => exact ⟨b, by simp, fun q => rfl⟩
    | cons c bs =>
      obtain ⟨d, hd, hlast⟩ := ih (by simp)
      exact ⟨d, List.mem_cons_of_mem _ hd, fun q => hlast (hhdm.ptr b)⟩

theorem segment_append : Segment hhdm m next prev (bs ++ cs) ↔
    Segment hhdm m (headPtr hhdm next cs) prev bs ∧
      Segment hhdm m next (lastPtr hhdm prev bs) cs := by
  induction bs generalizing prev with
  | nil => exact ⟨fun h => ⟨trivial, h⟩, fun h => h.2⟩
  | cons b bs ih =>
    simp [List.cons_append, Segment, lastPtr, headPtr_append, ih, and_assoc]

theorem Segment.congr (h : Segment hhdm m next prev bs)
    (hm : ∀ b ∈ bs, readHeader m' b.addr = readHeader m b.addr) :
    Segment hhdm m' next prev bs := by
  induction bs generalizing prev with
  | nil => trivial
  | cons b bs ih =>
    obtain ⟨hb, hrest⟩ := h
    exact ⟨(hm b (by simp)).trans hb, ih hrest fun c hc => hm c (List.mem_cons_of_mem _ hc)⟩

theorem Segment.set_prev (h : Segment hhdm m next prev (b :: bs))
    (hb : readHeader m' b.addr = { readHeader m b.addr with prev := prev' })
    (hm : ∀ c ∈ bs, readHeader m' c.addr = readHeader m c.addr) :
    Segment hhdm m' next prev' (b :: bs) := by
  obtain ⟨hhead, hrest⟩ := h
  refine ⟨?_, hrest.congr hm⟩
  rw [hb, hhead]
  rfl

end Segments

end GarnOS
