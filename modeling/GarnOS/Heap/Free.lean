import GarnOS.Heap.Invariant

/-! `kmfree` frees one block of the list and joins it with its free neighbours. -/
namespace GarnOS
open ByteMemory BlockList List

variable {hhdm : Hhdm} {s : KHeap} {a b : Block} {pre post : List Block}

section Absorb

theorem Laid.bound_post (h : Laid hhdm s (pre ++ b :: post)) :
    ∀ c ∈ post, c.stop 32 + hhdm.base < 2 ^ 64 := fun c hc => h.bound c (by simp [hc])

variable (h : Laid hhdm s (pre ++ a :: b :: post)) (hadj : a.stop 32 = b.addr)
include h hadj

/-- The stores of a merge, in order: the size of `a`, the back pointer behind `b`, the
forward pointer of `a`. -/
theorem Laid.absorb_stores : let m := (kheapAbsorb hhdm s (hhdm.ptr a) (hhdm.ptr b)).mem
    readHeader m a.addr = nodeHeader (lastPtr hhdm 0 pre) (headPtr hhdm 0 post) (join 32 a b) ∧
      Segment hhdm m 0 (hhdm.ptr a) post ∧ Untouched (a :: post) 0 0 s.mem m := by
  have hb : Laid hhdm s ((pre ++ [a]) ++ b :: post) := by simpa using h
  have hamid := h.separate.middle.2
  have hapost : ∀ d ∈ post, Apart 32 a d := fun d hd => hamid d (mem_cons_of_mem _ hd)
  have hbpost := hb.separate.middle.2
  have hab : Apart 32 a b := hamid b (by simp)
  have hboundb := h.bound b (by simp)
  have hplt := ptr_lt hboundb
  have hsize : ((s.header hhdm (hhdm.ptr a)).size + ((s.header hhdm (hhdm.ptr b)).size + headerSize)) %
      2 ^ 64 = a.size + b.size + 32 := by
    rw [h.size_eq, hb.size_eq]
    unfold Block.stop at hadj
    unfold Hhdm.ptr headerSize at *
    omega
  simp only [kheapAbsorb, hsize, phys_ptr]
  set m1 := setSize s.mem a.addr (a.size + b.size + 32)
  have hb1 : readHeader m1 b.addr = nodeHeader (lastPtr hhdm 0 (pre ++ [a]))
      (headPtr hhdm 0 post) b := by
    rw [(setSize_headerOnly s.mem a.addr _).readHeader hab.headers, hb.node]
  have hnext : (readHeader m1 b.addr).next = headPtr hhdm 0 post := by rw [hb1]; rfl
  rw [hnext]
  have hlink := relink_untouched hhdm m1 post (hhdm.ptr a)
  have hseg1 : Segment hhdm m1 0 (hhdm.ptr b) post :=
    (segment_append.mp hb.segment).2.2.congr fun d hd =>
      (setSize_headerOnly s.mem a.addr _).readHeader (hapost d hd).headers
  have hseppost : Separate 32 post := (pairwise_append.mp hb.separate).2.1.of_cons
  have hplta : hhdm.ptr a < 2 ^ 64 := by
    have hlta := ptr_lt (h.bound a (by simp))
    omega
  have hseg2 := hseg1.relink hseppost hplta
  set m2 := if headPtr hhdm 0 post ≠ 0 then
    setPrev m1 (hhdm.phys (headPtr hhdm 0 post)) (hhdm.ptr a) else m1
  have hb2 : (readHeader m2 b.addr).next = headPtr hhdm 0 post := by
    rw [hlink.readHeader (fun d hd => (hbpost d hd).headers) (Or.inr (Nat.zero_le _)), hb1]
    rfl
  rw [hb2]
  have ha2 : readHeader m2 a.addr =
      { readHeader s.mem a.addr with size := a.size + b.size + 32 } := by
    rw [hlink.readHeader (fun d hd => (hapost d hd).headers) (Or.inr (Nat.zero_le _)),
      readHeader_setSize, ← hsize, Nat.mod_mod]
  refine ⟨?_, ?_, ?_⟩
  · rw [readHeader_setNext, ha2, h.node, headPtr_mod hb.bound_post]
    rfl
  · exact hseg2.congr fun d hd => (setNext_headerOnly m2 a.addr _).readHeader (hapost d hd).headers
  · intro x hx hr
    have hxa := hx a (by simp)
    rw [setNext_headerOnly m2 a.addr _ x hxa, hlink x (fun d hd => hx d (by simp [hd])) hr]
    exact setSize_headerOnly s.mem a.addr _ x hxa

theorem Laid.absorb :
    Laid hhdm (kheapAbsorb hhdm s (hhdm.ptr a) (hhdm.ptr b)) (pre ++ join 32 a b :: post) ∧
      Untouched (pre ++ a :: b :: post) 0 0 s.mem
        (kheapAbsorb hhdm s (hhdm.ptr a) (hhdm.ptr b)).mem := by
  have hb : Laid hhdm s ((pre ++ [a]) ++ b :: post) := by simpa using h
  obtain ⟨ha, hpost, hout⟩ := h.absorb_stores hadj
  constructor
  · apply Laid.splice [a, b] [join 32 a b] h
    · intro d hd
      refine hout.readHeader (fun e he => ?_) (Or.inr (Nat.zero_le _))
      have hde : Apart 32 d e := by
        refine (pairwise_append.mp h.separate).2.2 d hd e ?_
        rcases mem_cons.mp he with rfl | he
        · simp
        · simp [he]
      exact hde.headers
    · rfl
    · exact ⟨ha, trivial⟩
    · exact hpost
    · rfl
    · have hend : (kheapAbsorb hhdm s (hhdm.ptr a) (hhdm.ptr b)).kheapEnd =
          if hhdm.ptr b = s.kheapEnd then hhdm.ptr a else s.kheapEnd := rfl
      rw [hend, hb.last]
      by_cases hempty : post = []
      · rw [if_pos ((ptr_eq_last_iff hb.separate).mpr hempty), hempty]
        simp [lastPtr_append, lastPtr, Hhdm.ptr, join]
      · rw [if_neg (mt (ptr_eq_last_iff hb.separate).mp hempty), append_assoc]
        exact (lastPtr_splice [a, b] [join 32 a b] hempty).symm
    · exact h.separate.join (by decide) hadj
    · intro c hc
      rw [mem_singleton.mp hc, join_stop hadj]
      exact h.bound b (by simp)
  · intro x hx hr
    apply hout x _ hr
    intro d hd
    apply hx d
    rcases mem_cons.mp hd with rfl | hd
    · simp
    · simp [hd]

end Absorb

@[simp] theorem isFree_flagByte (free : Bool) : isFree (flagByte free) = free := by
  cases free <;> decide

section Joins

theorem Laid.adjacent_iff (h : Laid hhdm s (pre ++ a :: b :: post)) :
    kheapAdjacent hhdm s (hhdm.ptr a) (hhdm.ptr b) ↔ a.stop 32 = b.addr := by
  have ha := h.bound a (by simp)
  unfold kheapAdjacent
  rw [h.size_eq]
  unfold Block.stop Hhdm.ptr headerSize at *
  omega

theorem Laid.join_iff (h : Laid hhdm s (pre ++ a :: b :: post)) {c : Block} (hc : c ∈ [a, b]) :
    (hhdm.ptr c ≠ 0 ∧ isFree (s.header hhdm (hhdm.ptr c)).flags ∧
      kheapAdjacent hhdm s (hhdm.ptr a) (hhdm.ptr b)) ↔ c.free = true ∧ a.stop 32 = b.addr := by
  have hb : Laid hhdm s ((pre ++ [a]) ++ b :: post) := by simpa using h
  have hflags : (s.header hhdm (hhdm.ptr c)).flags = flagByte c.free := by
    simp only [mem_cons, not_mem_nil, or_false] at hc
    rcases hc with rfl | rfl
    · exact h.flags_eq
    · exact hb.flags_eq
  simp [hflags, h.adjacent_iff, ptr_ne_zero]

variable (h : Laid hhdm s (pre ++ b :: post))
include h

theorem Laid.join_next : ∃ b' post', JoinNext 32 b post b' post' ∧ b'.addr = b.addr ∧
      Laid hhdm (kheapJoinNext hhdm s (hhdm.ptr b)) (pre ++ b' :: post') ∧
      Untouched (pre ++ b :: post) 0 0 s.mem (kheapJoinNext hhdm s (hhdm.ptr b)).mem := by
  unfold kheapJoinNext
  simp only [h.next_eq]
  cases post with
  | nil =>
    rw [if_neg (by simp)]
    exact ⟨b, [], .keep (by simp), rfl, h, Untouched.refl _ _ _ _⟩
  | cons c post =>
    rw [headPtr_cons]
    by_cases hjoin : c.free = true ∧ b.stop 32 = c.addr
    · rw [if_pos ((h.join_iff (by simp)).mpr hjoin)]
      exact ⟨_, post, .join hjoin.1 hjoin.2, rfl, h.absorb hjoin.2⟩
    · rw [if_neg (mt (h.join_iff (by simp)).mp hjoin)]
      refine ⟨b, _, .keep fun d hd hs => hjoin ?_, rfl, h, Untouched.refl _ _ _ _⟩
      rw [head?_cons, Option.mem_some_iff] at hd
      exact hd ▸ hs.2

theorem Laid.join_prev : ∃ pre' b', JoinPrev 32 b pre pre' b' ∧
      Laid hhdm (kheapJoinPrev hhdm s (hhdm.ptr b)) (pre' ++ b' :: post) ∧
      Untouched (pre ++ b :: post) 0 0 s.mem (kheapJoinPrev hhdm s (hhdm.ptr b)).mem := by
  unfold kheapJoinPrev
  simp only [h.prev_eq]
  rcases eq_nil_or_concat' pre with rfl | ⟨pre, a, rfl⟩
  · rw [if_neg (by simp [lastPtr])]
    exact ⟨[], b, .keep (by simp), h, Untouched.refl _ _ _ _⟩
  · have ha : Laid hhdm s (pre ++ a :: b :: post) := by simpa using h
    have hlast : lastPtr hhdm 0 (pre ++ [a]) = hhdm.ptr a := lastPtr_append_cons
    rw [hlast]
    by_cases hjoin : a.free = true ∧ a.stop 32 = b.addr
    · rw [if_pos ((ha.join_iff (by simp)).mpr hjoin), append_assoc, singleton_append]
      exact ⟨pre, _, .join hjoin.1 hjoin.2, ha.absorb hjoin.2⟩
    · rw [if_neg (mt (ha.join_iff (by simp)).mp hjoin)]
      refine ⟨_, b, .keep fun d hd hs => hjoin ?_, h, Untouched.refl _ _ _ _⟩
      rw [getLast?_concat, Option.mem_some_iff] at hd
      exact hd ▸ ⟨hs.1, hs.2.2⟩

/-- `kmfree` of a block in use: it becomes free and is joined with what it touches. Headers
of the list are all that changes. -/
theorem Laid.free : ∃ pre' b₁ b₂ post', JoinNext 32 { b with free := true } post b₁ post' ∧
      JoinPrev 32 b₁ pre pre' b₂ ∧
      Laid hhdm (kmfree hhdm s (hhdm.ptr b + 32)) (pre' ++ b₂ :: post') ∧
      Untouched (pre ++ b :: post) 0 0 s.mem (kmfree hhdm s (hhdm.ptr b + 32)).mem := by
  have hlt := ptr_lt (h.bound b (by simp))
  have hptr : u64 ((hhdm.ptr b + 32 : ℕ) - headerSize) = hhdm.ptr b := by
    unfold u64 headerSize
    omega
  have hflag : flagByte b.free ||| KHEAP_FLAGS_FREE = flagByte true := by
    cases b.free <;> decide
  unfold kmfree
  rw [if_neg (by omega)]
  simp only [hptr, h.flags_eq, hflag, phys_ptr]
  obtain ⟨b₁, post', hnext, haddr, hlaid, hout⟩ := (h.set_flag true).join_next
  obtain ⟨pre', b₂, hprev, hlaid', hout'⟩ := hlaid.join_prev
  have hsame : hhdm.ptr b₁ = hhdm.ptr b := congrArg (· + hhdm.base) haddr
  rw [hsame] at hlaid' hout'
  have hflagOnly : Untouched (pre ++ b :: post) 0 0 s.mem (setFlags s.mem b.addr (flagByte true)) :=
    (setFlags_headerOnly s.mem b.addr _).untouched 0 0 (by simp)
  refine ⟨pre', b₁, b₂, post', hnext, hprev, hlaid', ?_⟩
  refine hflagOnly.trans ((hout.mono fun c hc => ?_).trans (hout'.mono fun c hc => ?_))
  · rcases mem_append.mp hc with hc | hc
    · exact ⟨c, by simp [hc], rfl⟩
    · rcases mem_cons.mp hc with rfl | hc
      · exact ⟨b, by simp, rfl⟩
      · exact ⟨c, by simp [hc], rfl⟩
  · rcases mem_append.mp hc with hc | hc
    · exact ⟨c, by simp [hc], rfl⟩
    · rcases mem_cons.mp hc with rfl | hc
      · exact ⟨b, by simp, haddr.symm⟩
      · exact ⟨c, by simp [hnext.subset hc], rfl⟩

end Joins

theorem kheapJoinNext_pmm (hhdm : Hhdm) (s : KHeap) (h : ℕ) :
    (kheapJoinNext hhdm s h).pmm = s.pmm ∧ (kheapJoinNext hhdm s h).kheapSize = s.kheapSize := by
  unfold kheapJoinNext
  dsimp only
  split <;> exact ⟨rfl, rfl⟩

theorem kheapJoinPrev_pmm (hhdm : Hhdm) (s : KHeap) (h : ℕ) :
    (kheapJoinPrev hhdm s h).pmm = s.pmm ∧ (kheapJoinPrev hhdm s h).kheapSize = s.kheapSize := by
  unfold kheapJoinPrev
  dsimp only
  split <;> exact ⟨rfl, rfl⟩

theorem kmfree_pmm (hhdm : Hhdm) (s : KHeap) (ptr : ℕ) :
    (kmfree hhdm s ptr).pmm = s.pmm ∧ (kmfree hhdm s ptr).kheapSize = s.kheapSize := by
  unfold kmfree
  split
  · exact ⟨rfl, rfl⟩
  · simp [kheapJoinPrev_pmm, kheapJoinNext_pmm]

/-- What `kmfree` did to the list: the block is gone, joined with its free neighbours. -/
structure Freed (hhdm : Hhdm) (s s' : KHeap) (pre : List Block) (b : Block) (post : List Block)
    (bs' : List Block) : Prop where
  heap : HeapOn hhdm s' bs'
  used : used bs' = used pre ++ used post
  coalesced : Coalesced 32 (pre ++ b :: post) → Coalesced 32 bs'
  untouched : Untouched (pre ++ b :: post) 0 0 s.mem s'.mem

theorem HeapOn.free {hhdm : Hhdm} {s : KHeap} {b : Block} {pre post : List Block}
    (h : HeapOn hhdm s (pre ++ b :: post)) :
    ∃ bs', Freed hhdm s (kmfree hhdm s (hhdm.ptr b + 32)) pre b post bs' := by
  obtain ⟨pre', b₁, b₂, post', hnext, hprev, hlaid, hout⟩ := h.toLaid.free
  obtain ⟨hpmm, hsize⟩ := kmfree_pmm hhdm s (hhdm.ptr b + 32)
  obtain ⟨hused, hfree⟩ := hnext.used rfl
  have hjoin : ∀ a c : Block, a.stop 32 = c.addr → Sound s.pmm a → Sound s.pmm c →
      Sound s.pmm (join 32 a c) := fun a c hadj ha hc => ha.join hc hadj
  have hsound := h.sound
  simp only [forall_mem_append, forall_mem_cons] at hsound
  have hmid : ∀ c ∈ b₁ :: post', Sound s.pmm c := by
    apply hnext.forall hjoin
    exact forall_mem_cons.mpr ⟨hsound.2.1.set_free true, hsound.2.2⟩
  refine ⟨pre' ++ b₂ :: post', h.rearrange hlaid (by simp) ?_ ?_ hpmm hsize, ?_, ?_, hout⟩
  · apply hprev.forall hjoin
    exact forall_mem_append.mpr ⟨hsound.1, hmid⟩
  · rw [hprev.total, total_append, hnext.total]
    simp
  · rw [used_cons_free hfree] at hused
    rw [hprev.used hfree, hused]
  · intro hco
    rw [Coalesced, isChain_append] at hco
    exact hprev.coalesced hco.1 (hnext.coalesced hco.2.1.tail) hfree

end GarnOS
