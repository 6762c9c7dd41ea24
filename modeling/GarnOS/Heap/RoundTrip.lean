import GarnOS.Heap.Contract

/-! `kmfree` of what `kmalloc` has just returned: if no pages were needed, the heap is as before. -/
namespace GarnOS
open ByteMemory BlockList Outcome FirstFit List

/-- The same list between the same ends, with the same headers. -/
structure SameHeap (hhdm : Hhdm) (s s' : KHeap) (nodes : List ℕ) : Prop where
  follows : Follows hhdm s' s'.start nodes
  headers : ∀ h ∈ nodes, s'.header hhdm h = s.header hhdm h
  start : s'.start = s.start
  last : s'.kheapEnd = s.kheapEnd
  size : s'.kheapSize = s.kheapSize

section RoundTrip
variable {hhdm : Hhdm} {s s' : KHeap} {b : Block} {bs pre post : List Block} {n : ℕ}

theorem Laid.sameHeap (h : Laid hhdm s bs) (h' : Laid hhdm s' bs)
    (hsize : s'.kheapSize = s.kheapSize) : SameHeap hhdm s s' (bs.map hhdm.ptr) where
  follows := by
    rw [h'.start]
    exact h'.segment.follows
  headers := by
    intro p hp
    obtain ⟨b, hb, rfl⟩ := mem_map.mp hp
    obtain ⟨pre, post, rfl⟩ := append_of_mem hb
    rw [h.header, h'.header]
  start := h'.start.trans h.start.symm
  last := h'.last.trans h.last.symm
  size := hsize

theorem Laid.free_carve (h : Laid hhdm s (pre ++ (BlockList.carve 32 n b ++ post)))
    (hb : b.free = true) (hco : Coalesced 32 (pre ++ b :: post)) :
    Laid hhdm (kmfree hhdm s (hhdm.ptr b + 32)) (pre ++ b :: post) := by
  rw [carve_eq_granted_cons, cons_append] at h
  obtain ⟨pre', b₁, b₂, post', hnext, hprev, hlaid, -⟩ := h.free
  have hptr : hhdm.ptr (granted 32 n b) = hhdm.ptr b := by rw [Hhdm.ptr, granted_addr, Hhdm.ptr]
  rw [hptr] at hlaid
  rw [Coalesced, isChain_append, isChain_cons] at hco
  obtain ⟨rfl, rfl⟩ := hnext.of_granted hb hco.2.1.1
  obtain ⟨rfl, rfl⟩ := hprev.of_settled hb fun a ha => hco.2.2 a ha _ rfl
  exact hlaid

theorem HeapOn.heapAlign_le (h : HeapOn hhdm s bs) (hb : b ∈ bs) (hn : n ≤ b.size) :
    heapAlign n ≤ b.size := by
  have hbound := h.bound b hb
  have hsize := (h.sound b hb).size
  unfold Block.stop at hbound
  rw [heapAlign_eq (by omega)]
  unfold heapRound
  omega

/-- A request that a free block can serve is served without extending the heap, and freeing it
restores the heap. -/
theorem HeapOn.round_trip (h : HeapOn hhdm s bs) (hco : Coalesced 32 bs)
    (hfit : ∃ b ∈ bs, Fits n b) : ∃ p s', kmalloc hhdm s n = .ok (p, s') ∧
      SameHeap hhdm s (kmfree hhdm s' p) (bs.map hhdm.ptr) := by
  rcases h.try n with ⟨l, b, r, s', rfl, hb, hcall, hheap, -⟩ | ⟨hnone, -⟩
  · refine ⟨hhdm.ptr b + 32, s', hcall 1, h.sameHeap (hheap.free_carve hb.1 hco) ?_⟩
    have htotal := hheap.total
    rw [(kmfree_pmm hhdm s' _).2, ← htotal, ← h.total]
    simp [total_carve]
  · obtain ⟨b, hb, hfree, hn⟩ := hfit
    exact absurd ⟨hfree, h.heapAlign_le hb hn⟩ (hnone b hb)

end RoundTrip

/-- Every run from `kheap_init` whose requests can be counted in pages by an `int`: `kmalloc` of a
size that some free block can serve, followed by `kmfree`, changes nothing of the heap. -/
theorem kheap_round_trip (hhdm : Hhdm) (s : Machine) (s₀ : KHeap)
    (hmap : hhdm.base + 4096 * s.pmm.pages < 2 ^ 64) (hinit : kheapInit hhdm s = .ok s₀)
    (σ : HeapLedger) (hrun : Relation.ReflTransGen (HeapStep hhdm) ⟨s₀, []⟩ σ) :
    ∃ nodes, Follows hhdm σ.heap σ.heap.start nodes ∧
      ∀ n, (∃ h ∈ nodes, isFree (σ.heap.header hhdm h).flags = true ∧
          n ≤ (σ.heap.header hhdm h).size) →
        ∃ p s', kmalloc hhdm σ.heap n = .ok (p, s') ∧
          SameHeap hhdm σ.heap (kmfree hhdm s' p) nodes := by
  obtain ⟨bs, hlive⟩ := heapLive_of_run hmap hinit hrun
  refine ⟨bs.map hhdm.ptr, hlive.heapList.follows, fun n hfit => ?_⟩
  apply hlive.round_trip hlive.coalesced
  obtain ⟨h, hh, hfree, hn⟩ := hfit
  obtain ⟨b, hb, rfl⟩ := mem_map.mp hh
  obtain ⟨hsize, hflag⟩ := hlive.mem_header hb
  rw [hflag] at hfree
  rw [hsize] at hn
  exact ⟨b, hb, hfree, hn⟩

theorem kheap_round_trip_first : ∃ s₀ nodes, kheapInit highHalf freeMemory = .ok s₀ ∧
    Follows highHalf s₀ s₀.start nodes ∧ (∃ h ∈ nodes, isFree (s₀.header highHalf h).flags = true ∧
      100 ≤ (s₀.header highHalf h).size) ∧
    ∃ p s', kmalloc highHalf s₀ 100 = .ok (p, s') ∧
      SameHeap highHalf s₀ (kmfree highHalf s' p) nodes := by
  obtain ⟨s₀, f, hinit, -, hon⟩ := kheapInit_freeMemory
  obtain ⟨nodes, hfollows, htrip⟩ := kheap_round_trip highHalf freeMemory s₀ freeMemory_mapped hinit
    ⟨s₀, []⟩ .refl
  have hfit : ∃ h ∈ nodes, isFree (s₀.header highHalf h).flags = true ∧
      100 ≤ (s₀.header highHalf h).size := by
    obtain ⟨hsize, hflag⟩ := hon.mem_header (mem_singleton_self _)
    cases nodes with
    | nil => exact absurd (hfollows.symm.trans hon.start) (ptr_ne_zero highHalf _).symm
    | cons p nodes =>
      obtain rfl : highHalf.ptr (pageBlock f KHEAP_INIT_PAGES) = p :=
        hon.start.symm.trans hfollows.1
      refine ⟨_, mem_cons_self .., hflag, ?_⟩
      rw [hsize]
      exact (by decide : 100 ≤ 25000 * 4096 - 32)
  exact ⟨s₀, nodes, hinit, hfollows, hfit, htrip 100 hfit⟩

/-- More than 16 TiB of memory: what lies below 4 GiB is taken, the bitmap among it, and of the pages
from there on only the second one. -/
def holeMemory : Machine where
  mem := fun _ => 0
  pmm := ⟨List.replicate 131072 0xff ++ 0x40 :: List.replicate (2 ^ 30) 0, 1048577, 8589934599, by
    rw [List.length_append, List.length_cons, List.length_replicate, List.length_replicate]
    decide⟩

theorem holeMemory_length : holeMemory.pmm.bitmap.length = 131073 + 2 ^ 30 := by
  unfold holeMemory
  rw [length_append, length_cons, length_replicate, length_replicate]
  omega

theorem holeMemory_pages : holeMemory.pmm.pages = 8 * (131073 + 2 ^ 30) := by
  rw [Pmm.pages, holeMemory_length]

theorem holeMemory_mapped : highHalf.base + 4096 * holeMemory.pmm.pages < 2 ^ 64 := by
  rw [holeMemory_pages]
  decide

theorem holeMemory_free {q : ℕ} (hhigh : 1048576 ≤ q) : holeMemory.pmm.Free q ↔ q ≠ 1048577 := by
  have hbyte : holeMemory.pmm.byte (q / 8) = if q / 8 = 131072 then 0x40 else 0 := by
    unfold Pmm.byte holeMemory
    rw [getD_eq_getElem?_getD, getElem?_append_right (by rw [length_replicate]; omega),
      length_replicate, getElem?_cons]
    split
    · rw [if_pos (by omega)]
      rfl
    · rw [if_neg (by omega : ¬q / 8 = 131072)]
      exact getElem?_getD_replicate_default_eq _ _ _
  unfold Pmm.Free Pmm.test
  rw [hbyte]
  by_cases hq : q / 8 = 131072
  · rw [if_pos hq]
    obtain ⟨r, hr, rfl⟩ : ∃ r, r < 8 ∧ q = 1048576 + r := ⟨q % 8, by omega, by omega⟩
    have hmod : (1048576 + r) % 8 = r := by omega
    have hne : 1048576 + r ≠ 1048577 ↔ r ≠ 1 := by omega
    rw [hmod, hne]
    interval_cases r <;> decide
  · have hzero : (0 : BitVec 8) &&& 0b10000000#8 >>> (q % 8) = 0 := BitVec.zero_and
    rw [if_neg hq, hzero]
    exact ⟨fun _ heq => hq (by omega), fun _ => by decide⟩

/-- The block that the heap starts with on that machine, as what remains of it once the second
request has been split off. -/
def innerBlock : Block := ⟨1048578 * 4096, 2 ^ 44 - 4128, true⟩

/-- The block of `2 ^ 32 + 1` pages, of which one was allocated. -/
def outerBlock : Block := ⟨1048576 * 4096, 2 ^ 44 + 4064, true⟩

theorem kheapInit_holeMemory : ∃ s₀, kheapInit highHalf holeMemory = .ok s₀ ∧
    Marked holeMemory.pmm 1048578 KHEAP_INIT_PAGES s₀.pmm ∧
    HeapOn highHalf s₀ [pageBlock 1048578 KHEAP_INIT_PAGES] := by
  have hfirst : First holeMemory.pmm.Free 1048576 holeMemory.pmm.pages KHEAP_INIT_PAGES 1048578 := by
    refine ⟨by decide, by rw [holeMemory_pages]; decide, ?_, ?_⟩
    · intro q hlo _
      exact (holeMemory_free (by omega)).mpr (by omega)
    · intro b hlo hhi hrun
      exact (holeMemory_free (by decide)).mp (hrun 1048577 (by omega)
        (by unfold KHEAP_INIT_PAGES; omega)) rfl
  obtain ⟨s₀, hinit, f, hf, hmark, hon⟩ :=
    (kheapInit_post holeMemory holeMemory_mapped).returns_of_not fun _ he =>
      he.2 _ (Nat.zero_le _) hfirst.le hfirst.run
  obtain rfl := hf.eq_of_first (by rw [holeMemory_length]; omega) hfirst
  exact ⟨s₀, hinit, hmark, hon⟩

theorem outerBlock_ptr : (1048576 * 4096 + highHalf.base) % 2 ^ 64 = highHalf.ptr outerBlock := by
  decide

/-- The heap once `kheap_extend` has cleared the block that the only other block lies in. -/
def nestedHeap (m : Mem) (pmm : Pmm) : KHeap where
  mem :=
    let m := fill m outerBlock.addr (2 ^ 44 + 4096) 0
    let m := setSize m outerBlock.addr (2 ^ 44 + 4064)
    let m := setFlags m outerBlock.addr KHEAP_FLAGS_FREE
    let m := setPrev m outerBlock.addr (highHalf.ptr innerBlock)
    let m := setNext m outerBlock.addr 0
    setNext m innerBlock.addr (highHalf.ptr outerBlock)
  pmm := pmm
  start := highHalf.ptr innerBlock
  kheapEnd := highHalf.ptr outerBlock
  kheapSize := 25001 * 4096 + 2 ^ 44

/-- One page is found for `2 ^ 32 + 1`: the one that the heap had to leave out. -/
theorem kheapExtend_holeMemory {s₀ : KHeap}
    (hmark : Marked holeMemory.pmm 1048578 KHEAP_INIT_PAGES s₀.pmm)
    (hon : HeapOn highHalf s₀ [pageBlock 1048578 KHEAP_INIT_PAGES]) :
    ∃ m pmm, ∀ n, extendSize n = 2 ^ 44 + 4096 →
      kheapExtend highHalf s₀ n = .ok (nestedHeap m pmm) := by
  have hfree : s₀.pmm.Free 1048576 :=
    hmark.free_of ((holeMemory_free le_rfl).mpr (by decide)) (.inl (by decide))
  have hfirst : First s₀.pmm.Free 1048576 s₀.pmm.pages 1 1048576 := by
    refine ⟨le_rfl, ?_, ?_, by omega⟩
    · rw [pages_congr hmark.length, holeMemory_pages]
      decide
    · intro q hlo hhi
      rw [show q = 1048576 by omega]
      exact hfree
  have htotal : (s₀.kheapSize + (2 ^ 44 + 4096)) % 2 ^ 64 = 25001 * 4096 + 2 ^ 44 := by
    rw [← hon.total]
    decide
  have hlast : s₀.kheapEnd = highHalf.ptr innerBlock := hon.last
  have hstart : s₀.start = highHalf.ptr innerBlock := hon.start
  have hcount : int32 ((2 ^ 44 + 4096) / PAGE_SIZE : ℕ) = (1 : ℕ) := by decide
  have hrest : u64 (((2 ^ 44 + 4096 : ℕ) : ℤ) - headerSize) = 2 ^ 44 + 4064 := by decide
  obtain ⟨⟨base, machine⟩, halloc, f, hbase, hf, -, -⟩ :=
    (pmmAllocate_post s₀.toMachine (n := 1) (by decide)).returns_of_not fun _ he =>
      he.2 _ (Nat.zero_le _) hfirst.le hfirst.run
  obtain rfl := hf.eq_of_first (by rw [hmark.length, holeMemory_length]; omega) hfirst
  dsimp only at hbase
  refine ⟨machine.mem, machine.pmm, fun n hn => ?_⟩
  rw [kheapExtend_extendSize, hn, hcount, halloc, ok_bind]
  dsimp only
  rw [hbase, outerBlock_ptr, hlast, htotal, hstart, extendStores, phys_ptr, phys_ptr, hrest,
    memset_eq_fill]
  rfl

theorem kmalloc_holeMemory : ∃ x : Mem × Pmm, ∃ s₀, kheapInit highHalf holeMemory = .ok s₀ ∧
    ∀ n, n % 16 = 0 → 25000 * 4096 < n → extendSize n = 2 ^ 44 + 4096 →
      kmalloc highHalf s₀ n = kmallocTries highHalf 1 (nestedHeap x.1 x.2) n := by
  obtain ⟨s₀, hinit, hmark, hon⟩ := kheapInit_holeMemory
  obtain ⟨m, pmm, hextend⟩ := kheapExtend_holeMemory hmark hon
  refine ⟨(m, pmm), s₀, hinit, fun n hmod hlarge hn => ?_⟩
  rcases hon.try n with ⟨l, b, r, s', hsplit, hfit, -, -, -⟩ | ⟨-, htry⟩
  · have hb : b ∈ [pageBlock 1048578 KHEAP_INIT_PAGES] := by simp [hsplit]
    have hsize := hfit.2
    rw [mem_singleton.mp hb, heapAlign_of_mod hmod] at hsize
    have hle : n ≤ 25000 * 4096 - 32 := hsize
    omega
  · unfold kmalloc
    rw [htry, heapAlign_of_mod hmod, hextend n hn, ok_bind]

/-- The calls below read what these stores wrote, never the memory around it. -/
noncomputable def holeHeap : KHeap :=
  nestedHeap kmalloc_holeMemory.choose.1 kmalloc_holeMemory.choose.2

theorem holeHeap_trip : Post (kmallocTries highHalf 1 holeHeap (2 ^ 44 + 4064)) (fun r =>
    Follows highHalf (kmfree highHalf r.2 r.1) (kmfree highHalf r.2 r.1).start
      [highHalf.ptr innerBlock, highHalf.ptr outerBlock] ∧
    (∃ h ∈ [highHalf.ptr innerBlock, highHalf.ptr outerBlock],
      isFree ((kmfree highHalf r.2 r.1).header highHalf h).flags = true ∧
      8160 ≤ ((kmfree highHalf r.2 r.1).header highHalf h).size) ∧
    Post (kmalloc highHalf (kmfree highHalf r.2 r.1) 8160) (fun r' =>
      ¬∀ h ∈ [highHalf.ptr innerBlock, highHalf.ptr outerBlock],
        (kmfree highHalf r'.2 r'.1).header highHalf h =
          (kmfree highHalf r.2 r.1).header highHalf h) fun _ => False) fun _ => False := by
  decide +kernel

/-- After a request for `2 ^ 44 + 4064` bytes, `kmalloc` of 8160 bytes writes the header of the rest
over the first block of the list, and `kmfree` leaves it there. -/
theorem kheap_round_trip_cut : ∃ s₀ p s₁ nodes q s₃, kheapInit highHalf holeMemory = .ok s₀ ∧
    kmalloc highHalf s₀ (2 ^ 44 + 4064) = .ok (p, s₁) ∧
    Follows highHalf (kmfree highHalf s₁ p) (kmfree highHalf s₁ p).start nodes ∧
    (∃ h ∈ nodes, isFree ((kmfree highHalf s₁ p).header highHalf h).flags = true ∧
      8160 ≤ ((kmfree highHalf s₁ p).header highHalf h).size) ∧
    kmalloc highHalf (kmfree highHalf s₁ p) 8160 = .ok (q, s₃) ∧
    ¬SameHeap highHalf (kmfree highHalf s₁ p) (kmfree highHalf s₃ q) nodes := by
  obtain ⟨s₀, hinit, hagain⟩ := kmalloc_holeMemory.choose_spec
  obtain ⟨⟨p, s₁⟩, hfirst, hfollows, hfit, hlater⟩ := holeHeap_trip.returns
  obtain ⟨⟨q, s₃⟩, hsecond, hdiff⟩ := hlater.returns
  exact ⟨s₀, p, s₁, _, q, s₃, hinit, (hagain _ (by decide) (by decide) (by decide)).trans hfirst,
    hfollows, hfit, hsecond, fun hsame => hdiff hsame.headers⟩

/-- What a request for `2 ^ 44 + 3968` bytes leaves of the outer block. -/
def lastBlock : Block := ⟨1048576 * 4096 + 32 + (2 ^ 44 + 3968), 64, true⟩

/-- The first two requests take all of the outer block. Once the first of them has been freed, 8160
bytes end where the inner block starts, and the joins leave the inner header free on the list. -/
theorem holeHeap_stale : Post (kmallocTries highHalf 1 holeHeap (2 ^ 44 + 3968)) (fun p =>
    Post (kmalloc highHalf p.2 64) (fun q =>
      Post (kmalloc highHalf (kmfree highHalf q.2 p.1) 8160) (fun r =>
        Follows highHalf (kmfree highHalf (kmfree highHalf r.2 r.1) q.1)
          (kmfree highHalf (kmfree highHalf r.2 r.1) q.1).start
          [highHalf.ptr innerBlock, highHalf.ptr lastBlock] ∧
        ¬HeapCoalesced highHalf (kmfree highHalf (kmfree highHalf r.2 r.1) q.1)
          [highHalf.ptr innerBlock, highHalf.ptr lastBlock])
      fun _ => False) fun _ => False) fun _ => False := by
  decide +kernel

/-- After six calls, the first block of the list is a free one that `kmfree` has merged into the block
around it, and the next one, merged as well, starts where the first one ends. -/
theorem kheap_coalesced_cut : ∃ s₀ p s₁ q s₂ r s₃, kheapInit highHalf holeMemory = .ok s₀ ∧
    kmalloc highHalf s₀ (2 ^ 44 + 3968) = .ok (p, s₁) ∧ kmalloc highHalf s₁ 64 = .ok (q, s₂) ∧
    kmalloc highHalf (kmfree highHalf s₂ p) 8160 = .ok (r, s₃) ∧
    let s := kmfree highHalf (kmfree highHalf s₃ r) q
    ∃ nodes, Follows highHalf s s.start nodes ∧ ¬HeapCoalesced highHalf s nodes := by
  obtain ⟨s₀, hinit, hagain⟩ := kmalloc_holeMemory.choose_spec
  obtain ⟨⟨p, s₁⟩, hfirst, hlater⟩ := holeHeap_stale.returns
  obtain ⟨⟨q, s₂⟩, hsecond, hlast⟩ := hlater.returns
  obtain ⟨⟨r, s₃⟩, hthird, hfollows, hstale⟩ := hlast.returns
  exact ⟨s₀, p, s₁, q, s₂, r, s₃, hinit,
    (hagain _ (by decide) (by decide) (by decide)).trans hfirst, hsecond, hthird, _, hfollows, hstale⟩

end GarnOS
