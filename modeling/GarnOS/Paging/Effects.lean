import GarnOS.Library.RadixTree
import GarnOS.Paging.Arch

/-! What the paging code does to the machine as a whole: the frames a call takes from the
allocator or gives back, and the frames whose bytes it may change. -/
namespace GarnOS
open ByteMemory Outcome Finset RadixTree

/-- From `s` to `s'` exactly the frames `A` were allocated, all of them free before, and only
frames of `W` were written. -/
structure Acquired (s : Machine) (A W : Finset ℕ) (s' : Machine) : Prop where
  length : s'.pmm.bitmap.length = s.pmm.bitmap.length
  setBits : s'.pmm.setBits = s.pmm.setBits ∪ A
  fresh : Disjoint s.pmm.setBits A
  used : s'.pmm.usedPages = s.pmm.usedPages + BitVec.ofNat 64 A.card
  free : s'.pmm.freePages = s.pmm.freePages - BitVec.ofNat 64 A.card
  mem : ∀ f ∉ W, FrameEq s.mem s'.mem f

/-- From `s` to `s'` exactly the frames `R` were freed, each by one call, and only frames of
`W` were written. -/
structure Released (s : Machine) (R W : Finset ℕ) (s' : Machine) : Prop where
  length : s'.pmm.bitmap.length = s.pmm.bitmap.length
  setBits : s'.pmm.setBits = s.pmm.setBits \ R
  used : s'.pmm.usedPages = s.pmm.usedPages - BitVec.ofNat 64 R.card
  free : s'.pmm.freePages = s.pmm.freePages + BitVec.ofNat 64 R.card
  mem : ∀ f ∉ W, FrameEq s.mem s'.mem f

section Effects
variable {s s' s'' : Machine} {A B R Q W V : Finset ℕ} {f : ℕ}

theorem Acquired.refl (s : Machine) (W : Finset ℕ) : Acquired s ∅ W s :=
  ⟨rfl, by simp, by simp, by simp, by simp, fun f _ => FrameEq.refl _ f⟩

section
variable (h : Acquired s A W s')
include h

theorem Acquired.trans (h' : Acquired s' B V s'') : Acquired s (A ∪ B) (W ∪ V) s'' := by
  have hfresh := h'.fresh
  rw [h.setBits, disjoint_union_left] at hfresh
  have hcard := card_union_of_disjoint hfresh.2
  constructor
  · rw [h'.length, h.length]
  · rw [h'.setBits, h.setBits, union_assoc]
  · rw [disjoint_union_right]
    exact ⟨h.fresh, hfresh.1⟩
  · rw [h'.used, h.used, hcard, BitVec.ofNat_add, BitVec.add_assoc]
  · rw [h'.free, h.free, hcard, BitVec.ofNat_add]
    bv_omega
  · intro f hf
    rw [mem_union, not_or] at hf
    exact (h.mem f hf.1).trans (h'.mem f hf.2)

theorem Acquired.mono (hW : W ⊆ V) : Acquired s A V s' :=
  ⟨h.length, h.setBits, h.fresh, h.used, h.free, fun f hf => h.mem f fun hm => hf (hW hm)⟩

theorem Acquired.pages : s'.pmm.pages = s.pmm.pages := pages_congr h.length

theorem Acquired.taken : A ⊆ s'.pmm.setBits := by
  rw [h.setBits]
  exact subset_union_right

theorem Acquired.keeps : s.pmm.setBits ⊆ s'.pmm.setBits := by
  rw [h.setBits]
  exact subset_union_left

theorem Acquired.card_clearBits : s'.pmm.clearBits.card + A.card = s.pmm.clearBits.card := by
  have hcard := card_union_of_disjoint h.fresh
  rw [← h.setBits] at hcard
  have h1 := s.pmm.card_setBits_add_card_clearBits
  have h2 := s'.pmm.card_setBits_add_card_clearBits
  rw [h.pages] at h2
  omega

theorem Acquired.write {m : Mem} (hm : ∀ f ∉ W, FrameEq s'.mem m f) :
    Acquired s A W { s' with mem := m } :=
  ⟨h.length, h.setBits, h.fresh, h.used, h.free, fun f hf => (h.mem f hf).trans (hm f hf)⟩

end

theorem Released.refl (s : Machine) (W : Finset ℕ) : Released s ∅ W s :=
  ⟨rfl, by simp, by simp, by simp, fun f _ => FrameEq.refl _ f⟩

section
variable (h : Released s R W s')
include h

theorem Released.trans (h' : Released s' Q V s'') (hd : Disjoint R Q) :
    Released s (R ∪ Q) (W ∪ V) s'' := by
  have hcard := card_union_of_disjoint hd
  constructor
  · rw [h'.length, h.length]
  · rw [h'.setBits, h.setBits, sdiff_sdiff_left, sup_eq_union]
  · rw [h'.used, h.used, hcard, BitVec.ofNat_add]
    bv_omega
  · rw [h'.free, h.free, hcard, BitVec.ofNat_add, BitVec.add_assoc]
  · intro f hf
    rw [mem_union, not_or] at hf
    exact (h.mem f hf.1).trans (h'.mem f hf.2)

theorem Released.mono (hW : W ⊆ V) : Released s R V s' :=
  ⟨h.length, h.setBits, h.used, h.free, fun f hf => h.mem f fun hm => hf (hW hm)⟩

theorem Released.write {m : Mem} (hm : ∀ f ∉ W, FrameEq s'.mem m f) :
    Released s R W { s' with mem := m } :=
  ⟨h.length, h.setBits, h.used, h.free, fun f hf => (h.mem f hf).trans (hm f hf)⟩

theorem Released.pages : s'.pmm.pages = s.pmm.pages := pages_congr h.length

theorem Released.card_clearBits_le : s.pmm.clearBits.card ≤ s'.pmm.clearBits.card := by
  have hcard : s'.pmm.setBits.card ≤ s.pmm.setBits.card := by
    rw [h.setBits]
    exact card_le_card sdiff_subset
  have h1 := s.pmm.card_setBits_add_card_clearBits
  have h2 := s'.pmm.card_setBits_add_card_clearBits
  rw [h.pages] at h2
  omega

end

theorem Acquired.released (h : Acquired s A W s') (h' : Released s' A V s'') :
    s''.pmm.bitmap = s.pmm.bitmap ∧ s''.pmm.usedPages = s.pmm.usedPages ∧
      s''.pmm.freePages = s.pmm.freePages := by
  have hbits : s''.pmm.setBits = s.pmm.setBits := by
    rw [h'.setBits, h.setBits, union_sdiff_right]
    exact sdiff_eq_self_of_disjoint h.fresh
  refine ⟨Pmm.bitmap_ext_setBits (h'.length.trans h.length) hbits, ?_, ?_⟩
  · rw [h'.used, h.used, BitVec.add_sub_cancel]
  · rw [h'.free, h.free, BitVec.sub_add_cancel]

end Effects

theorem pmmAllocate_one_post (s : Machine) :
    Post (pmmAllocate s 1)
      (fun r => ∃ f, r.1 = f * 4096 ∧ f < s.pmm.pages ∧ f ∉ s.pmm.setBits ∧
        Acquired s {f} ∅ r.2 ∧ r.2.mem = s.mem)
      (fun e => e = outOfMemory ∧ s.pmm.clearBits.card = 0) := by
  apply (pmmAllocate_post s (n := 1) (by decide)).mono
  · rintro ⟨base, s'⟩ ⟨f, hbase, hfirst, hm, hmem⟩
    obtain ⟨hfit, hrun⟩ := hfirst.fits
    have hfree : f ∉ s.pmm.setBits := by
      rw [Pmm.mem_setBits, hrun f le_rfl (by omega)]
      decide
    have hIco : Ico f (f + 1) = {f} := by simp
    refine ⟨f, hbase, by omega, hfree, ?_, hmem⟩
    refine ⟨hm.length, hIco ▸ hm.setBits, by simpa using hfree, by simpa using hm.used,
      by simpa using hm.free, fun g _ => ?_⟩
    rw [hmem]
    exact FrameEq.refl _ g
  · rintro e ⟨he, hno⟩
    refine ⟨he, ?_⟩
    rw [card_eq_zero, eq_empty_iff_forall_notMem]
    intro f hf
    rw [Pmm.mem_clearBits] at hf
    apply hno f (Nat.zero_le f) (by omega)
    intro q h1 h2
    rw [show q = f by omega]
    exact hf.2

variable {s : Machine} {f t n : ℕ} {live : PageTableEntry → Bool} {m m' : Mem}

theorem pmmFree_one (h : f < s.pmm.pages) :
    pmmFree s (f * 4096) 1 = .ok ⟨fill s.mem (f * 4096) 4096 0xff, s.pmm.clear f⟩ := by
  have hlt := s.pmm.pages_lt
  have hcount : pageCount (f * 4096) 1 = 1 := pageCount_eq (n := 1) (by omega)
  have hlast : lastPage (f * 4096) 1 = f * 4096 := by
    unfold lastPage
    simp only [sub_self, zero_mul, int32_of_range (show (-2 ^ 31 : ℤ) ≤ 0 by norm_num)
      (by norm_num)]
    change (f * 4096 + 0) % 2 ^ 64 = f * 4096
    omega
  unfold pmmFree
  rw [hcount, Nat.mul_div_cancel _ (by decide), forRange_succ, hlast, memset_eq_fill,
    pmmBitmapClear_of_lt h]
  rfl

theorem pmmFree_one_post (h : f < s.pmm.pages) :
    Post (pmmFree s (f * 4096) 1) (Released s {f} {f}) (fun _ => False) := by
  rw [pmmFree_one h]
  refine post_ok.mpr ⟨by simp [Pmm.clear], ?_, by simp [Pmm.clear], by simp [Pmm.clear],
    fun g hg => ?_⟩
  · rw [Pmm.setBits_clear, erase_eq]
  · rw [mem_singleton] at hg
    exact (fill_frameEq 0xff hg).symm

/-- Which entries hold a child: `live` decides for pages, `present` for tables. -/
def holds (live : PageTableEntry → Bool) : ℕ → PageTableEntry → Bool
  | 0, e => live e
  | _ + 1, e => e.present

/-- The links a memory stores, read as page tables. -/
def links (live : PageTableEntry → Bool) (m : Mem) : Links ℕ := fun n t i =>
  if holds live n (readEntry m t i) then some (readEntry m t i).frame else none

theorem slots_le (n : ℕ) : slots n ≤ 512 := by
  unfold slots
  split <;> omega

theorem links_congr (h : FrameEq m m' t) (n : ℕ) {i : ℕ} (hi : i < 512) :
    links live m' n t i = links live m n t i := by
  unfold links
  rw [readEntry_congr h hi]

theorem agree_of_frameEq (h : ∀ u ∈ tables slots (links live m) n t, FrameEq m m' u) :
    Agree slots (links live m) (links live m') n t := by
  induction n generalizing t with
  | zero => exact agree_zero _ _ t
  | succ n ih =>
    intro i hi
    refine ⟨links_congr (h t (self_mem_tables _ n t)) n (hi.trans_le (slots_le _)), fun f hf => ?_⟩
    exact ih fun u hu => h u (mem_tables_of_child hi hf hu)

theorem agreeSlot_of_frameEq {j : ℕ} (hentry : readEntry m' t j = readEntry m t j)
    (h : ∀ f ∈ branch slots (links live m) n t j, FrameEq m m' f) :
    AgreeSlot slots (links live m) (links live m') n t j := by
  constructor
  · simp [links, hentry]
  · intro f hf
    apply agree_of_frameEq
    intro u hu
    apply h
    rw [branch_of_some hf]
    exact tables_subset_footprint _ n f hu

end GarnOS
