import GarnOS.Mem.PmmSearch

/-! What one call of the allocator does to the set of taken pages and to the counters. -/
namespace GarnOS
open Outcome FirstFit Finset Nat

structure Marked (p : Pmm) (b n : ℕ) (p' : Pmm) : Prop where
  length : p'.bitmap.length = p.bitmap.length
  setBits : p'.setBits = p.setBits ∪ Ico b (b + n)
  used : p'.usedPages = p.usedPages + BitVec.ofNat 64 n
  free : p'.freePages = p.freePages - BitVec.ofNat 64 n

structure Unmarked (p : Pmm) (b n : ℕ) (p' : Pmm) : Prop where
  length : p'.bitmap.length = p.bitmap.length
  setBits : p'.setBits = p.setBits \ Ico b (b + n)
  used : p'.usedPages = p.usedPages - BitVec.ofNat 64 n
  free : p'.freePages = p.freePages + BitVec.ofNat 64 n

private theorem ofNat_succ (k : ℕ) : BitVec.ofNat 64 (k + 1) = BitVec.ofNat 64 k + 1 :=
  BitVec.ofNat_add k 1

private theorem sub_ofNat_succ (x : BitVec 64) (k : ℕ) :
    x - BitVec.ofNat 64 (k + 1) = x - BitVec.ofNat 64 k - 1 := by
  rw [ofNat_succ]
  bv_omega

theorem Marked.start (p : Pmm) (b : ℕ) : Marked p b (b - b) p := ⟨rfl, by simp, by simp, by simp⟩

theorem Unmarked.start (p : Pmm) (b : ℕ) : Unmarked p b (b - b) p :=
  ⟨rfl, by simp, by simp, by simp⟩

variable {p p' : Pmm} {b i n : ℕ}

theorem Marked.set (h : Marked p b (i - b) p') (hlo : b ≤ i) (hlt : i < p'.pages) :
    Marked p b (i + 1 - b) (p'.set i) := by
  rw [Nat.sub_add_comm hlo]
  constructor
  · simpa [Pmm.set] using h.length
  · rw [Pmm.setBits_set hlt, h.setBits, ← add_assoc, ← insert_Ico_right_eq_Ico_add_one (by omega),
      union_insert, Nat.add_sub_cancel' hlo]
  · rw [ofNat_succ, ← BitVec.add_assoc, ← h.used]
    rfl
  · rw [sub_ofNat_succ, ← h.free]
    rfl

theorem Unmarked.clear (h : Unmarked p b (i - b) p') (hlo : b ≤ i) :
    Unmarked p b (i + 1 - b) (p'.clear i) := by
  rw [Nat.sub_add_comm hlo]
  constructor
  · simpa [Pmm.clear] using h.length
  · rw [Pmm.setBits_clear, h.setBits, ← add_assoc, ← insert_Ico_right_eq_Ico_add_one (by omega),
      sdiff_insert, Nat.add_sub_cancel' hlo]
  · rw [sub_ofNat_succ, ← h.used]
    rfl
  · rw [ofNat_succ, ← BitVec.add_assoc, ← h.free]
    rfl

theorem pages_congr (h : p'.bitmap.length = p.bitmap.length) : p'.pages = p.pages := by
  unfold Pmm.pages
  rw [h]

theorem pageCount_eq (h : b + n < 2 ^ 64) : pageCount (b * 4096) n = n := by
  unfold pageCount
  rw [u64_natCast, Nat.mul_div_cancel _ (by decide)]
  omega

theorem markLoop_post {E : Fault → Prop} (h : b + n ≤ p.pages) :
    Post (forRange (fun i p => pmmBitmapSet p i) (b * 4096 / 4096) (pageCount (b * 4096) n) p)
      (Marked p b n) E := by
  have hpages := p.pages_lt
  rw [pageCount_eq (by omega), Nat.mul_div_cancel _ (by decide)]
  apply (forRange_post (fun i => Marked p b (i - b)) (.start p b) ?_).mono_ok
  · intro p' hp
    simpa using hp
  · intro i p' hlo hi hp
    have hlt : i < p'.pages := by
      rw [pages_congr hp.length]
      omega
    rw [pmmBitmapSet_of_lt hlt]
    exact post_ok.mpr (hp.set hlo hlt)

theorem pmmAllocate_post (s : Machine) (hn : 0 < n) : Post (pmmAllocate s n)
      (fun r => ∃ b, r.1 = b * 4096 ∧ HighFirst s.pmm n b ∧ Marked s.pmm b n r.2.pmm ∧
        r.2.mem = s.mem)
      (fun e => e = outOfMemory ∧ NoRun s.pmm.Free 0 s.pmm.pages n) := by
  apply (pmmFindFree_post s.pmm hn).bind
  rintro _ ⟨b, rfl, hfirst⟩
  apply (markLoop_post hfirst.fits.1).bind
  intro p' hp
  exact post_pure.mpr ⟨b, rfl, hfirst, hp, rfl⟩

theorem pmmAllocate32_post (s : Machine) (hn : 0 < n) : Post (pmmAllocate32 s n)
      (fun r => ∃ b, r.1 = b * 4096 ∧ First s.pmm.Free 0 (limit32 s.pmm) n b ∧
        Marked s.pmm b n r.2.pmm ∧ r.2.mem = s.mem)
      (fun e => e = outOfMemory32 ∧ NoRun s.pmm.Free 0 (limit32 s.pmm) n) := by
  apply (pmmFindFree32_post s.pmm hn).bind
  rintro _ ⟨b, rfl, hfirst⟩
  have hfit : b + n ≤ s.pmm.pages := hfirst.le.trans (min_le_left _ _)
  apply (markLoop_post hfit).bind
  intro p' hp
  exact post_pure.mpr ⟨b, rfl, hfirst, hp, rfl⟩

theorem lastPage_eq (hn : 0 < n) (hsmall : n ≤ 2 ^ 19) (hb : b + n < 2 ^ 52) :
    lastPage (b * 4096) n = (b + n - 1) * 4096 := by
  have hoffset : int32 (((n : ℤ) - 1) * (PAGE_SIZE : ℕ)) = ((n - 1) * 4096 : ℕ) := by
    unfold int32 PAGE_SIZE
    rw [Int.bmod_eq_of_le]
    · push_cast [cast_sub (show 1 ≤ n from hn)]
      rfl
    · omega
    · omega
  unfold lastPage
  rw [hoffset, u64_natCast, mod_eq_of_lt (a := (n - 1) * 4096) (by omega)]
  omega

theorem pmmFree_mem (s : Machine) (hn : 0 < n) (hsmall : n ≤ 2 ^ 19) (h : b + n ≤ s.pmm.pages)
    {x : ℕ} (hx : x < b * 4096 ∨ (b + n) * 4096 ≤ x) :
    Post (pmmFree s (b * 4096) n) (fun s' => s'.mem x = s.mem x) (fun _ => True) := by
  have hlt := s.pmm.pages_lt
  refine (forRange_post (fun _ t => t.mem x = s.mem x) rfl fun i t _ _ ht => ?_).mono_ok
    fun _ h => h
  have hstore : memset t.mem (lastPage (b * 4096) n) 0xff PAGE_SIZE x = s.mem x := by
    rw [memset_eq_fill, lastPage_eq hn hsmall (by omega), ← ht]
    unfold PAGE_SIZE
    exact if_neg (by omega)
  cases hclear : pmmBitmapClear t.pmm i with
  | error e => exact post_error.mpr trivial
  | ok p => exact post_ok.mpr hstore

theorem Pmm.disjoint_of_run (h : Run p.Free b n) : Disjoint p.setBits (Ico b (b + n)) := by
  rw [disjoint_left]
  intro q hq hin
  rw [mem_Ico] at hin
  rw [Pmm.mem_setBits, h q hin.1 hin.2] at hq
  exact Bool.noConfusion hq

theorem Marked.free_of {q : ℕ} (hm : Marked p b n p') (hq : p.Free q) (hout : q < b ∨ b + n ≤ q) :
    p'.Free q := by
  unfold Pmm.Free at hq ⊢
  rw [← Bool.not_eq_true, ← Pmm.mem_setBits, hm.setBits, mem_union, Pmm.mem_setBits, hq, mem_Ico]
  rintro (h | h)
  · cases h
  · omega

theorem Marked.card_setBits (hm : Marked p b n p') (hfree : Disjoint p.setBits (Ico b (b + n))) :
    p'.setBits.card = p.setBits.card + n := by
  rw [hm.setBits, card_union_of_disjoint hfree, Nat.card_Ico, Nat.add_sub_cancel_left]

theorem Pmm.CountsMatch.marked (h : p.CountsMatch) (hm : Marked p b n p') (hfit : b + n ≤ p.pages)
    (hfree : Disjoint p.setBits (Ico b (b + n))) : p'.CountsMatch := by
  have hcard := hm.card_setBits hfree
  have hsum := p.card_setBits_add_card_clearBits
  have hsum' := p'.card_setBits_add_card_clearBits
  rw [pages_congr hm.length] at hsum'
  have hlt := p.pages_lt
  constructor
  · rw [hm.used, BitVec.toNat_add, BitVec.toNat_ofNat, h.used]
    omega
  · rw [hm.free, BitVec.toNat_sub, BitVec.toNat_ofNat, h.free]
    omega

theorem Pmm.CountsMatch.unmarked (h : p.CountsMatch) (hm : Unmarked p b n p')
    (hset : Ico b (b + n) ⊆ p.setBits) : p'.CountsMatch := by
  have hcard : p'.setBits.card + n = p.setBits.card := by
    have hle := card_le_card hset
    rw [Nat.card_Ico, Nat.add_sub_cancel_left] at hle
    rw [hm.setBits, card_sdiff_of_subset hset, Nat.card_Ico, Nat.add_sub_cancel_left]
    omega
  have hsum := p.card_setBits_add_card_clearBits
  have hsum' := p'.card_setBits_add_card_clearBits
  rw [pages_congr hm.length] at hsum'
  have hlt := p.pages_lt
  constructor
  · rw [hm.used, BitVec.toNat_sub, BitVec.toNat_ofNat, h.used]
    omega
  · rw [hm.free, BitVec.toNat_add, BitVec.toNat_ofNat, h.free]
    omega

end GarnOS
