import GarnOS.Heap.Invariant

/-! `kmalloc` takes the first free block that is large enough, or one it appends for the
purpose. -/
namespace GarnOS
open ByteMemory BlockList Outcome FirstFit Finset List Nat

@[simp] theorem flagByte_and_free (free : Bool) :
    flagByte free &&& KHEAP_FLAGS_FREE = 0 ↔ free = false := by
  cases free <;> decide

section Scan
variable {hhdm : Hhdm} {s : KHeap} {b : Block} {pre post : List Block}

theorem kmallocScan_succ (h : Laid hhdm s (pre ++ b :: post)) (n fuel : ℕ) :
    kmallocScan hhdm s n (fuel + 1) (hhdm.ptr b) =
      if b.free = true ∧ n ≤ b.size then .ok (some (kheapCarve hhdm s (hhdm.ptr b) n))
      else kmallocScan hhdm s n fuel (headPtr hhdm 0 post) := by
  unfold kheapCarve
  rw [kmallocScan, headerSize, if_neg (ptr_ne_zero hhdm b), h.size_eq, h.flags_eq, h.next_eq]
  by_cases hfit : b.free = true ∧ n ≤ b.size
  · rw [if_pos hfit, if_neg (by simp only [flagByte_and_free, hfit, Bool.true_eq_false, false_or]; omega)]
    by_cases hle : b.size ≤ n + 32
    · rw [if_pos (by omega), if_pos hle]
    · rw [if_neg (by omega), if_pos (by omega), if_neg hle]
  · rw [if_neg hfit, if_pos]
    rw [flagByte_and_free]
    cases hfree : b.free with
    | false => exact Or.inl rfl
    | true => exact Or.inr (by simpa [hfree] using hfit)

theorem Laid.scan (h : Laid hhdm s (pre ++ post)) (n : ℕ) {fuel : ℕ} (hfuel : post.length < fuel) :
    (∃ l b r, post = l ++ b :: r ∧ Fits n b ∧ kmallocScan hhdm s n fuel (headPtr hhdm 0 post) =
        .ok (some (kheapCarve hhdm s (hhdm.ptr b) n))) ∨
      (∀ c ∈ post, ¬ Fits n c) ∧
        kmallocScan hhdm s n fuel (headPtr hhdm 0 post) = .ok none := by
  induction post generalizing pre fuel with
  | nil =>
    cases fuel with
    | zero => exact absurd hfuel (not_lt_zero _)
    | succ fuel => exact Or.inr ⟨by simp, by simp [kmallocScan]⟩
  | cons c post ih =>
    cases fuel with
    | zero => exact absurd hfuel (not_lt_zero _)
    | succ fuel =>
      rw [headPtr_cons, kmallocScan_succ h]
      by_cases hfit : c.free = true ∧ n ≤ c.size
      · exact Or.inl ⟨[], c, post, rfl, hfit, if_pos hfit⟩
      · rw [if_neg hfit]
        have hrest : Laid hhdm s ((pre ++ [c]) ++ post) := by simpa using h
        have hlen : post.length < fuel := by simpa using hfuel
        rcases ih hrest hlen with ⟨l, b, r, rfl, hb, hscan⟩ | ⟨hnone, hscan⟩
        · exact Or.inl ⟨c :: l, b, r, rfl, hb, hscan⟩
        · exact Or.inr ⟨forall_mem_cons.mpr ⟨hfit, hnone⟩, hscan⟩

end Scan

def pageBlock (f k : ℕ) : Block := ⟨f * 4096, k * 4096 - 32, true⟩

/-- The pages `kheap_extend` asks for to serve `n` bytes. -/
def heapPages (n : ℕ) : ℕ := (n + 32 + 4095) / 4096

/-- The size that `kheap_extend` computes: what it clears and claims. -/
def extendSize (n : ℕ) : ℕ :=
  let size := (n + headerSize) % 2 ^ 64
  if size % PAGE_SIZE ≠ 0 then ALIGN_UP size PAGE_SIZE else size

section Extend
variable {hhdm : Hhdm} {s : KHeap} {b e : Block} {bs pre : List Block} {f k n : ℕ}

theorem kheapExtend_extendSize (hhdm : Hhdm) (s : KHeap) (n : ℕ) : kheapExtend hhdm s n = do
    let (base, machine) ← pmmAllocate s.toMachine (int32 (extendSize n / PAGE_SIZE : ℕ))
    let newh := (base + hhdm.base) % 2 ^ 64
    return { mem := extendStores hhdm machine.mem newh s.kheapEnd (extendSize n),
             pmm := machine.pmm, start := s.start, kheapEnd := newh,
             kheapSize := (s.kheapSize + extendSize n) % 2 ^ 64 } := rfl

theorem pageBlock_stop (f : ℕ) (hk : 0 < k) : (pageBlock f k).stop 32 = (f + k) * 4096 := by
  unfold pageBlock Block.stop
  dsimp only
  omega

variable {p : Pmm} {c : Block} {t : KHeap}

theorem Sound.apart (hb : Sound p b) (hk : 0 < k) (hfree : Disjoint p.setBits (Ico f (f + k))) :
    Apart 32 b (pageBlock f k) := by
  by_contra hnot
  have hstop := pageBlock_stop f hk
  have haddr : (pageBlock f k).addr = f * 4096 := rfl
  have hpos : b.addr < b.stop 32 := by
    unfold Block.stop
    omega
  unfold Apart at hnot
  have hin := hb.backed (max b.addr (f * 4096)) (le_max_left _ _) (by omega)
  exact disjoint_left.mp hfree hin (mem_Ico.mpr (by omega))

theorem extendStores_spec (hhdm : Hhdm) {m : Mem} {e : Block} (hsize : c.size + 32 < 2 ^ 64)
    (hce : c.stop 32 ≤ e.addr ∨ e.addr + 32 ≤ c.addr) (hc : hhdm.ptr c < 2 ^ 64)
    (he : hhdm.ptr e < 2 ^ 64) :
    let m' := extendStores hhdm m (hhdm.ptr c) (hhdm.ptr e) (c.size + 32)
    readHeader m' c.addr = ⟨c.size, KHEAP_FLAGS_FREE, 0, hhdm.ptr e⟩ ∧
      readHeader m' e.addr = { readHeader m e.addr with next := hhdm.ptr c } ∧
      Untouched [e] c.addr (c.stop 32) m m' := by
  have hrest : u64 (((c.size + 32 : ℕ) : ℤ) - headerSize) = c.size := by
    unfold u64 headerSize
    omega
  simp only [extendStores, phys_ptr, hrest]
  set m1 := setNext (setPrev (setFlags (setSize (memset m c.addr 0 (c.size + 32)) c.addr c.size)
    c.addr KHEAP_FLAGS_FREE) c.addr (hhdm.ptr e)) c.addr 0 with hm1
  unfold Block.stop at hce
  -- everything up to the last store stays inside the new block
  have hin : ∀ x, x < c.addr ∨ c.addr + 32 + c.size ≤ x → m1 x = m x := by
    intro x hx
    rw [hm1, setNext_headerOnly _ _ _ x (by omega), setPrev_headerOnly _ _ _ x (by omega),
      setFlags_headerOnly _ _ _ x (by omega), setSize_headerOnly _ _ _ x (by omega),
      memset_eq_fill]
    exact if_neg (by omega)
  refine ⟨?_, ?_, fun x hx hr => ?_⟩
  · rw [(setNext_headerOnly m1 e.addr _).readHeader (by omega), hm1]
    simp only [readHeader_setNext, readHeader_setPrev, readHeader_setFlags, readHeader_setSize,
      mod_eq_of_lt he, mod_eq_of_lt (show c.size < 2 ^ 64 by omega)]
    rfl
  · have hsame : readHeader m1 e.addr = readHeader m e.addr :=
      readHeader_congr fun x h1 h2 => hin x (by omega)
    rw [readHeader_setNext, hsame, mod_eq_of_lt hc]
  · rw [setNext_headerOnly m1 e.addr _ x (hx e (by simp))]
    exact hin x hr

theorem Laid.extend (h : Laid hhdm s (pre ++ [e])) (hfree : c.free = true)
    (hbound : c.stop 32 + hhdm.base < 2 ^ 64) (hapart : ∀ b ∈ pre ++ [e], Apart 32 b c)
    (hmem : t.mem = extendStores hhdm s.mem (hhdm.ptr c) (hhdm.ptr e) (c.size + 32))
    (hstart : t.start = s.start) (hend : t.kheapEnd = hhdm.ptr c) :
    Laid hhdm t ((pre ++ [e]) ++ [c]) ∧ Untouched (pre ++ [e]) c.addr (c.stop 32) s.mem t.mem := by
  have hlt := ptr_lt hbound
  have hlte := ptr_lt (h.bound e (by simp))
  have hec : Apart 32 e c := hapart e (by simp)
  have hce : c.stop 32 ≤ e.addr ∨ e.addr + 32 ≤ c.addr := by
    unfold Apart Block.stop at hec
    unfold Block.stop
    omega
  obtain ⟨hc1, he1, hout⟩ := extendStores_spec hhdm (m := s.mem)
    (by unfold Hhdm.ptr at *; omega) hce
    (by omega) (by omega)
  rw [← hmem] at hc1 he1 hout
  constructor
  · have hsplice : Laid hhdm t (pre ++ ([e, c] ++ [])) := by
      apply Laid.splice [e] [e, c] (by simpa using h)
      · intro d hd
        have hde := h.separate.middle.1 d hd
        have hdc := hapart d (by simp [hd])
        refine hout.readHeader (fun b hb => ?_) ?_
        · rw [List.mem_singleton.mp hb]
          exact hde.symm.headers
        · unfold Apart Block.stop at hdc
          unfold Block.stop
          omega
      · rfl
      · refine ⟨?_, ?_, trivial⟩
        · rw [he1, h.node]
          rfl
        · rw [hc1, nodeHeader, hfree]
          rfl
      · trivial
      · exact hstart
      · rw [hend]
        simp [lastPtr_append, lastPtr]
      · have hsep : Separate 32 ((pre ++ [e]) ++ [c]) := by
          refine pairwise_append.mpr ⟨h.separate, pairwise_singleton _ _, ?_⟩
          intro b hb d hd
          rw [List.mem_singleton.mp hd]
          exact hapart b hb
        simpa using hsep
      · intro d hd
        simp only [List.mem_cons, List.not_mem_nil, or_false] at hd
        rcases hd with rfl | rfl
        · exact h.bound _ (by simp)
        · exact hbound
    simpa using hsplice
  · apply hout.mono
    intro d hd
    exact ⟨d, by simp [List.mem_singleton.mp hd], rfl⟩

theorem extendSize_eq (hn : n + 4127 < 2 ^ 64) : extendSize n = heapPages n * 4096 := by
  unfold extendSize heapPages ALIGN_UP headerSize PAGE_SIZE
  dsimp only
  rw [mod_eq_of_lt (show n + 32 < 2 ^ 64 by omega)]
  split
  · rw [mod_eq_of_lt (by omega)]
    omega
  · omega

theorem kheapExtend_eq (hsize : extendSize n = k * 4096) (hk : k < 2 ^ 31) :
    kheapExtend hhdm s n = do
    let (base, machine) ← pmmAllocate s.toMachine (k : ℕ)
    let newh := (base + hhdm.base) % 2 ^ 64
    return { mem := extendStores hhdm machine.mem newh s.kheapEnd (k * 4096),
             pmm := machine.pmm, start := s.start, kheapEnd := newh,
             kheapSize := (s.kheapSize + k * 4096) % 2 ^ 64 } := by
  have hcount : int32 ((k * 4096 / PAGE_SIZE : ℕ) : ℤ) = (k : ℕ) := by
    rw [PAGE_SIZE, Nat.mul_div_cancel _ (by decide)]
    exact int32_of_range (by omega) (by omega)
  rw [kheapExtend_extendSize, hsize]
  simp only [hcount]

theorem pageBlock_sound (hk : 0 < k) (hsub : Finset.Ico f (f + k) ⊆ p.setBits) :
    Sound p (pageBlock f k) := by
  refine ⟨?_, ?_, fun x h1 h2 => hsub (mem_Ico.mpr ?_)⟩
  · unfold pageBlock
    dsimp only
    omega
  · unfold pageBlock
    dsimp only
    omega
  · rw [pageBlock_stop f hk] at h2
    unfold pageBlock at h1
    dsimp only at h1
    omega

theorem HeapOn.grow (h : HeapOn hhdm s (pre ++ [e])) (hk : 0 < k) (hfit : f + k ≤ s.pmm.pages)
    (hrun : Run s.pmm.Free f k) (hmark : Marked s.pmm f k t.pmm)
    (hmem : t.mem = extendStores hhdm s.mem (hhdm.ptr (pageBlock f k)) (hhdm.ptr e) (k * 4096))
    (hstart : t.start = s.start) (hend : t.kheapEnd = hhdm.ptr (pageBlock f k))
    (hsize : t.kheapSize = (s.kheapSize + k * 4096) % 2 ^ 64) :
    HeapOn hhdm t ((pre ++ [e]) ++ [pageBlock f k]) ∧
      Untouched (pre ++ [e]) (pageBlock f k).addr ((pageBlock f k).stop 32) s.mem t.mem := by
  have hfree := Pmm.disjoint_of_run hrun
  have hcard := hmark.card_setBits hfree
  have hpages := pages_congr hmark.length
  have hsum := t.pmm.card_setBits_add_card_clearBits
  have henough := h.enough
  have hdirect := h.direct
  have hbound : (pageBlock f k).stop 32 + hhdm.base < 2 ^ 64 := by
    rw [pageBlock_stop f hk]
    omega
  have hbytes : (pageBlock f k).size + 32 = k * 4096 := by
    unfold pageBlock
    dsimp only
    omega
  have hkheap : t.kheapSize = s.kheapSize + k * 4096 := by
    rw [hsize]
    exact mod_eq_of_lt (by omega)
  rw [← hbytes] at hmem
  obtain ⟨hlaid, hout⟩ := h.toLaid.extend rfl hbound (fun b hb => (h.sound b hb).apart hk hfree)
    hmem hstart hend
  refine ⟨⟨hlaid, by simp, ?_, ?_, ?_, ?_⟩, hout⟩
  · intro b hb
    rcases mem_append.mp hb with hb | hb
    · exact (h.sound b hb).mono (hmark.setBits ▸ subset_union_left)
    · rw [List.mem_singleton.mp hb]
      exact pageBlock_sound hk (hmark.setBits ▸ subset_union_right)
  · rw [total_append, h.total, hkheap]
    simp [hbytes]
  · omega
  · omega

/-- `kheap_extend` appends a block of `k` pages that were free, unless the allocator has no run of
that many. -/
theorem HeapOn.extend (h : HeapOn hhdm s bs) (hsize : extendSize n = k * 4096) (hk : 0 < k)
    (hlt : k < 2 ^ 31) :
    Post (kheapExtend hhdm s n)
      (fun t => ∃ f, Run s.pmm.Free f k ∧ Marked s.pmm f k t.pmm ∧
        HeapOn hhdm t (bs ++ [pageBlock f k]) ∧
        Untouched bs (pageBlock f k).addr ((pageBlock f k).stop 32) s.mem t.mem)
      (fun e => e = outOfMemory ∧ NoRun s.pmm.Free 0 s.pmm.pages k) := by
  obtain ⟨pre, e, rfl⟩ : ∃ pre e, bs = pre ++ [e] := by
    rcases eq_nil_or_concat' bs with rfl | ⟨pre, e, rfl⟩
    · exact absurd rfl h.nonempty
    · exact ⟨pre, e, rfl⟩
  have hlast : s.kheapEnd = hhdm.ptr e := h.last.trans lastPtr_append_cons
  rw [kheapExtend_eq hsize hlt]
  apply (pmmAllocate_post s.toMachine hk).bind
  rintro ⟨_, machine⟩ ⟨f, rfl, hfirst, hmark, hmem⟩
  obtain ⟨hfit, hrun⟩ := hfirst.fits
  have hdirect := h.direct
  have hptr : (f * 4096 + hhdm.base) % 2 ^ 64 = hhdm.ptr (pageBlock f k) :=
    mod_eq_of_lt (by omega)
  apply post_pure.mpr
  refine ⟨f, hrun, hmark, h.grow hk hfit hrun hmark ?_ rfl hptr rfl⟩
  rw [hptr, hmem, hlast]

end Extend

def heapRound (n : ℕ) : ℕ := (n + 15) / 16 * 16

section Malloc
variable {hhdm : Hhdm} {s : KHeap} {b : Block} {bs pre post : List Block} {n : ℕ}

def heapAlign (n : ℕ) : ℕ := if n % 0x10 ≠ 0 then ALIGN_UP n 0x10 else n

theorem heapAlign_mod (n : ℕ) : heapAlign n % 16 = 0 := by
  unfold heapAlign ALIGN_UP
  split
  · omega
  · omega

theorem heapAlign_of_mod (h : n % 16 = 0) : heapAlign n = n := if_neg (by omega)

theorem heapAlign_eq (hn : n + 15 < 2 ^ 64) : heapAlign n = heapRound n := by
  unfold heapAlign heapRound ALIGN_UP
  split
  · rw [mod_eq_of_lt (by omega)]
    omega
  · omega

theorem HeapOn.scan_fuel (h : HeapOn hhdm s bs) : bs.length < s.kheapSize / headerSize + 1 := by
  have hlen := length_mul_le_total 32 bs
  rw [h.total] at hlen
  unfold headerSize
  omega

/-- One try of `kmalloc`: it takes a block of the list, or it extends the heap. -/
theorem HeapOn.try (h : HeapOn hhdm s bs) (n : ℕ) :
    (∃ l b r s', bs = l ++ b :: r ∧ Fits (heapAlign n) b ∧
        (∀ tries, kmallocTries hhdm (tries + 1) s n = .ok (hhdm.ptr b + 32, s')) ∧
        HeapOn hhdm s' (l ++ (BlockList.carve 32 (heapAlign n) b ++ r)) ∧
        Untouched bs b.addr (b.stop 32) s.mem s'.mem) ∨
      (∀ c ∈ bs, ¬ Fits (heapAlign n) c) ∧ ∀ tries, kmallocTries hhdm (tries + 1) s n =
        kheapExtend hhdm s (heapAlign n) >>= fun t => kmallocTries hhdm tries t (heapAlign n) := by
  have hall : Laid hhdm s ([] ++ bs) := h.toLaid
  rcases hall.scan (heapAlign n) h.scan_fuel with ⟨l, b, r, rfl, hfit, hscan⟩ | ⟨hnone, hscan⟩
  · obtain ⟨s', hcarve, hheap, hout⟩ := h.carve (heapAlign_mod n)
    refine Or.inl ⟨l, b, r, s', rfl, hfit, fun tries => ?_, hheap, hout⟩
    show (kmallocScan hhdm s (heapAlign n) _ s.start >>= _) = _
    rw [h.start, hscan, hcarve]
    rfl
  · refine Or.inr ⟨hnone, fun tries => ?_⟩
    show (kmallocScan hhdm s (heapAlign n) _ s.start >>= _) = _
    rw [h.start, hscan]
    rfl

theorem split_concat {l r : List Block} {c : Block} (h : bs ++ [c] = l ++ b :: r) (hb : b ∉ bs) :
    l = bs ∧ b = c ∧ r = [] := by
  rcases eq_nil_or_concat' r with rfl | ⟨r, d, rfl⟩
  · obtain ⟨hl, hc⟩ := append_inj' h rfl
    exact ⟨hl.symm, (singleton_inj.mp hc).symm, rfl⟩
  · have hassoc : bs ++ [c] = (l ++ b :: r) ++ [d] := by simpa using h
    have hbs := (append_inj' hassoc rfl).1
    exact absurd (by simp [hbs]) hb

/-- The try after an extension takes the block that was appended. -/
theorem HeapOn.retry {c : Block} (h : HeapOn hhdm s (bs ++ [c]))
    (hnone : ∀ b ∈ bs, ¬ Fits (heapAlign n) b) (hc : Fits (heapAlign n) c) :
    ∃ s', (∀ tries, kmallocTries hhdm (tries + 1) s (heapAlign n) = .ok (hhdm.ptr c + 32, s')) ∧
      HeapOn hhdm s' (bs ++ (BlockList.carve 32 (heapAlign n) c ++ [])) ∧
      Untouched (bs ++ [c]) c.addr (c.stop 32) s.mem s'.mem := by
  have htry := h.try (heapAlign n)
  rw [heapAlign_of_mod (heapAlign_mod n)] at htry
  rcases htry with ⟨l, b, r, s', hsplit, hfit, hcall, hheap, hout⟩ | ⟨hnone', -⟩
  · obtain ⟨rfl, rfl, rfl⟩ := split_concat hsplit fun hb => hnone b hb hfit
    exact ⟨s', hcall, hheap, hout⟩
  · exact absurd hc (hnone' c (by simp))

/-- What a successful `kmalloc` did: it took `n` bytes of a block that was free or that it
appended. -/
structure Allocated (hhdm : Hhdm) (s : KHeap) (bs : List Block) (n : ℕ) (r : ℕ × KHeap)
    (pre : List Block) (b : Block) (post : List Block) : Prop where
  place : pre ++ b :: post = bs ∨ pre = bs ∧ post = []
  separate : Separate 32 (pre ++ b :: post)
  fits : Fits n b
  ptr : r.1 = hhdm.ptr b + 32
  heap : HeapOn hhdm r.2 (pre ++ (carve 32 n b ++ post))
  untouched : Untouched bs b.addr (b.stop 32) s.mem r.2.mem

/-- `kmalloc` returns a block unless the page allocator has no room; the second try never
fails if the appended block fits. -/
theorem HeapOn.malloc_pages (h : HeapOn hhdm s bs) {k : ℕ}
    (hsize : extendSize (heapAlign n) = k * 4096) (hk : 0 < k) (hlt : k < 2 ^ 31)
    (hfits : heapAlign n ≤ k * 4096 - 32) :
    Post (kmalloc hhdm s n) (fun r => ∃ pre b post, Allocated hhdm s bs (heapAlign n) r pre b post)
      (fun e => e = outOfMemory ∧ NoRun s.pmm.Free 0 s.pmm.pages k) := by
  unfold kmalloc
  rcases h.try n with ⟨l, b, r, s', rfl, hfit, hcall, hheap, hout⟩ | ⟨hnone, hcall⟩
  · rw [hcall, post_ok]
    exact ⟨l, b, r, Or.inl rfl, h.separate, hfit, rfl, hheap, hout⟩
  · rw [hcall]
    apply (h.extend hsize hk hlt).bind
    rintro t ⟨f, -, -, hext, hout⟩
    obtain ⟨s', hretry, hheap, hout'⟩ := hext.retry hnone ⟨rfl, hfits⟩
    rw [hretry, post_ok]
    exact ⟨bs, _, [], Or.inr ⟨rfl, rfl⟩, hext.separate, ⟨rfl, hfits⟩, rfl, hheap,
      hout.trans hout'.of_concat⟩

/-- No size in `kmalloc` and `kheap_extend` wraps if the pages can be counted by an `int`. -/
theorem heapAlign_pages (hn : heapPages (heapRound n) < 2 ^ 31) : heapAlign n = heapRound n ∧
    extendSize (heapAlign n) = heapPages (heapRound n) * 4096 ∧ 0 < heapPages (heapRound n) ∧
    heapAlign n ≤ heapPages (heapRound n) * 4096 - 32 := by
  have hsmall : heapRound n + 4127 < 2 ^ 64 := by
    unfold heapPages at hn
    omega
  have halign : heapAlign n = heapRound n := by
    apply heapAlign_eq
    unfold heapRound at hsmall
    omega
  rw [halign, extendSize_eq hsmall]
  unfold heapPages
  omega

theorem HeapOn.malloc (h : HeapOn hhdm s bs) (hn : heapPages (heapRound n) < 2 ^ 31) :
    Post (kmalloc hhdm s n) (fun r => ∃ pre b post, Allocated hhdm s bs (heapRound n) r pre b post)
      (fun e => e = outOfMemory ∧ NoRun s.pmm.Free 0 s.pmm.pages (heapPages (heapRound n))) := by
  obtain ⟨halign, hsize, hpos, hfits⟩ := heapAlign_pages hn
  have hmalloc := h.malloc_pages hsize hpos hn hfits
  rwa [halign] at hmalloc

end Malloc

end GarnOS
