import GarnOS.Heap.Live

/-! What the heap's clients and its own loops rely on, stated on the headers in memory. -/
namespace GarnOS
open ByteMemory BlockList Outcome FirstFit List

/-- Following `next` from `h` visits `nodes` and ends at `NULL`. -/
def Follows (hhdm : Hhdm) (s : KHeap) : ℕ → List ℕ → Prop
  | h, [] => h = 0
  | h, p :: nodes => h = p ∧ p ≠ 0 ∧ Follows hhdm s (s.header hhdm p).next nodes

instance Follows.decidable (hhdm : Hhdm) (s : KHeap) :
    (h : ℕ) → (nodes : List ℕ) → Decidable (Follows hhdm s h nodes)
  | h, [] => inferInstanceAs (Decidable (h = 0))
  | h, p :: nodes =>
    have := Follows.decidable hhdm s (s.header hhdm p).next nodes
    inferInstanceAs (Decidable (h = p ∧ p ≠ 0 ∧ Follows hhdm s (s.header hhdm p).next nodes))

/-- The representation of the heap: the list from `start` to `end`, both ways, whose blocks
are disjoint, add up to `kheapSize`, and are in use exactly if a client holds them. -/
structure HeapList (hhdm : Hhdm) (σ : HeapLedger) (nodes : List ℕ) : Prop where
  follows : Follows hhdm σ.heap σ.heap.start nodes
  acyclic : nodes.Nodup
  last : nodes.getLast? = some σ.heap.kheapEnd
  first : (σ.heap.header hhdm σ.heap.start).prev = 0
  inverse : ∀ p ∈ nodes, ∀ q ∈ nodes,
    (σ.heap.header hhdm p).next = q ↔ (σ.heap.header hhdm q).prev = p
  disjoint : nodes.Pairwise fun p q => p + 32 + (σ.heap.header hhdm p).size ≤ q ∨
    q + 32 + (σ.heap.header hhdm q).size ≤ p
  distinct : σ.pointers.Nodup
  live : ∀ p ∈ σ.pointers, ∃! h, (h ∈ nodes ∧ isFree (σ.heap.header hhdm h).flags = false) ∧
    p = h + 32
  free : ∀ h ∈ nodes, h + 32 ∉ σ.pointers → isFree (σ.heap.header hhdm h).flags = true
  sum : (nodes.map fun h => (σ.heap.header hhdm h).size + 32).sum = σ.heap.kheapSize

/-- A request is served whenever the page allocator could serve it. -/
def HeapServes (hhdm : Hhdm) (σ : HeapLedger) : Prop :=
  ∀ n, Servable n → (∃ b, b + heapPages (heapRound n) ≤ σ.heap.pmm.pages ∧
    Run σ.heap.pmm.Free b (heapPages (heapRound n))) → ∃ p s', kmalloc hhdm σ.heap n = .ok (p, s')

/-- The capacity of the block behind a client's pointer. -/
def HeapLedger.capacity (hhdm : Hhdm) (σ : HeapLedger) (p : ℕ) : ℕ :=
  (σ.heap.header hhdm (p - 32)).size

/-- What each client has: an aligned payload of at least the size it asked for, which no
other live block's header or payload meets. -/
structure HeapSafe (hhdm : Hhdm) (σ : HeapLedger) : Prop where
  aligned : ∀ p ∈ σ.pointers, p % 16 = 0
  enough : ∀ p n, (p, n) ∈ σ.live → n ≤ σ.capacity hhdm p
  apart : ∀ p ∈ σ.pointers, ∀ q ∈ σ.pointers, p ≠ q →
    p + σ.capacity hhdm p ≤ q - 32 ∨ q + σ.capacity hhdm q ≤ p - 32

/-- No call changes a byte of a payload that is live before and after it. -/
def HeapKept (hhdm : Hhdm) (σ : HeapLedger) : Prop :=
  ∀ τ, HeapCall hhdm σ τ → ∀ p ∈ σ.pointers, p ∈ τ.pointers → ∀ x, p ≤ x →
    x < p + σ.capacity hhdm p → τ.heap.mem (hhdm.phys x) = σ.heap.mem (hhdm.phys x)

/-- No two neighbours of the list are both free and contiguous. -/
def HeapCoalesced (hhdm : Hhdm) (s : KHeap) (nodes : List ℕ) : Prop :=
  ∀ h ∈ nodes, (s.header hhdm h).next ≠ 0 → ¬(isFree (s.header hhdm h).flags = true ∧
    isFree (s.header hhdm (s.header hhdm h).next).flags = true ∧
      h + 32 + (s.header hhdm h).size = (s.header hhdm h).next)

instance HeapCoalesced.decidable (hhdm : Hhdm) (s : KHeap) (nodes : List ℕ) :
    Decidable (HeapCoalesced hhdm s nodes) := by
  unfold HeapCoalesced
  infer_instance

section Laid
variable {hhdm : Hhdm} {s : KHeap} {m : Mem} {a b : Block} {bs pre post : List Block} {prev : ℕ}

theorem Segment.follows (h : Segment hhdm s.mem 0 prev bs) :
    Follows hhdm s (headPtr hhdm 0 bs) (bs.map hhdm.ptr) := by
  induction bs generalizing prev with
  | nil => rfl
  | cons b bs ih =>
    obtain ⟨hb, hrest⟩ := h
    refine ⟨rfl, ptr_ne_zero hhdm b, ?_⟩
    unfold KHeap.header
    rw [phys_ptr, hb]
    exact ih hrest

variable (h : Laid hhdm s bs)
include h

theorem Laid.mem_header (hb : b ∈ bs) : (s.header hhdm (hhdm.ptr b)).size = b.size ∧
      isFree (s.header hhdm (hhdm.ptr b)).flags = b.free := by
  obtain ⟨pre, post, rfl⟩ := append_of_mem hb
  rw [h.size_eq, h.flags_eq, isFree_flagByte]
  exact ⟨rfl, rfl⟩

theorem Laid.ptr_inj (ha : a ∈ bs) (hb : b ∈ bs) (heq : hhdm.ptr a = hhdm.ptr b) : a = b := by
  by_contra hne
  have hapart := h.separate.of_mem ha hb hne
  exact hapart.ne (by decide) (Nat.add_right_cancel heq)

theorem Laid.nodup : (bs.map hhdm.ptr).Nodup := by
  apply pairwise_map.mpr
  apply h.separate.imp
  intro a b hab heq
  exact hab.ne (by decide) (Nat.add_right_cancel heq)

theorem Laid.prev_of_next (ha : a ∈ bs) (hb : b ∈ bs)
    (hnext : (s.header hhdm (hhdm.ptr a)).next = hhdm.ptr b) :
    (s.header hhdm (hhdm.ptr b)).prev = hhdm.ptr a := by
  obtain ⟨pre, post, rfl⟩ := append_of_mem ha
  rw [h.next_eq] at hnext
  cases post with
  | nil => exact absurd hnext.symm (ptr_ne_zero hhdm b)
  | cons c post =>
    obtain rfl : c = b := h.ptr_inj (by simp) hb hnext
    have hc : Laid hhdm s ((pre ++ [a]) ++ c :: post) := by simpa using h
    rw [hc.prev_eq]
    exact lastPtr_append_cons

theorem Laid.next_of_prev (ha : a ∈ bs) (hb : b ∈ bs)
    (hprev : (s.header hhdm (hhdm.ptr b)).prev = hhdm.ptr a) :
    (s.header hhdm (hhdm.ptr a)).next = hhdm.ptr b := by
  obtain ⟨pre, post, rfl⟩ := append_of_mem hb
  rw [h.prev_eq] at hprev
  rcases eq_nil_or_concat' pre with rfl | ⟨pre, c, rfl⟩
  · exact absurd hprev.symm (ptr_ne_zero hhdm a)
  · rw [lastPtr_append_cons] at hprev
    obtain rfl : c = a := h.ptr_inj (by simp) ha hprev
    have hc : Laid hhdm s (pre ++ c :: b :: post) := by simpa using h
    exact hc.next_eq

end Laid

section Ledger
variable {hhdm : Hhdm} {σ τ : HeapLedger} {b c : Block} {bs : List Block} {p : ℕ}

variable (h : HeapLive hhdm σ bs)
include h

theorem HeapLive.distinct : σ.pointers.Nodup := by
  apply h.live.nodup_iff.mpr
  have hsub : (used bs).Sublist bs := filter_sublist
  have hnodup : ((used bs).map hhdm.ptr).Nodup := h.nodup.sublist (hsub.map _)
  apply pairwise_map.mpr
  apply (pairwise_map.mp hnodup).imp
  intro a b hab heq
  exact hab (Nat.add_right_cancel heq)

theorem HeapLive.mem_pointers (hb : b ∈ bs) : hhdm.ptr b + 32 ∈ σ.pointers ↔ b.free = false := by
  rw [h.live.mem_iff, mem_map]
  constructor
  · rintro ⟨c, hc, heq⟩
    obtain ⟨hmem, hused⟩ := mem_used.mp hc
    rw [← h.ptr_inj hmem hb (Nat.add_right_cancel heq)]
    exact hused
  · intro hfree
    exact ⟨b, mem_used.mpr ⟨hb, hfree⟩, rfl⟩

theorem HeapLive.heapList : HeapList hhdm σ (bs.map hhdm.ptr) where
  follows := by
    rw [h.start]
    exact h.segment.follows
  acyclic := h.nodup
  last := by
    have hne := h.nonempty
    rcases eq_nil_or_concat' bs with rfl | ⟨pre, e, rfl⟩
    · exact absurd rfl hne
    · have hend : σ.heap.kheapEnd = hhdm.ptr e := h.last.trans lastPtr_append_cons
      simp [hend]
  first := by
    have hne := h.nonempty
    have hlaid := h.toLaid
    cases bs with
    | nil => exact absurd rfl hne
    | cons b bs =>
      have hmid : Laid hhdm σ.heap ([] ++ b :: bs) := hlaid
      rw [h.start]
      exact hmid.prev_eq
  inverse := by
    simp only [forall_mem_map]
    intro a ha b hb
    exact ⟨h.prev_of_next ha hb, h.next_of_prev ha hb⟩
  disjoint := by
    apply pairwise_map.mpr
    apply h.separate.imp_of_mem
    intro a b ha hb hab
    rw [(h.mem_header ha).1, (h.mem_header hb).1]
    unfold Apart Block.stop at hab
    unfold Hhdm.ptr
    omega
  distinct := h.distinct
  live := by
    intro p hp
    obtain ⟨b, hb, rfl⟩ := h.block_of_live hp
    obtain ⟨hmem, hused⟩ := mem_used.mp hb
    refine ⟨hhdm.ptr b, ⟨⟨mem_map_of_mem hmem, ?_⟩, rfl⟩, ?_⟩
    · rw [(h.mem_header hmem).2, hused]
    · intro q hq
      exact (Nat.add_right_cancel hq.2).symm
  free := by
    simp only [forall_mem_map]
    intro b hb hnot
    rw [h.mem_pointers hb] at hnot
    rw [(h.mem_header hb).2]
    simpa using hnot
  sum := by
    rw [← h.total, BlockList.total, map_map]
    congr 1
    apply map_congr_left
    intro b hb
    exact congrArg (· + 32) (h.mem_header hb).1

theorem HeapLive.serves : HeapServes hhdm σ := by
  intro n hn hroom
  obtain ⟨b, hfit, hrun⟩ := hroom
  obtain ⟨r, hcall, -⟩ := (h.toHeapOn.malloc hn).returns_of_not fun _ he =>
    he.2 b (Nat.zero_le b) hfit hrun
  exact ⟨r.1, r.2, hcall⟩

theorem HeapLive.capacity_eq (hb : b ∈ used bs) : σ.capacity hhdm (hhdm.ptr b + 32) = b.size := by
  unfold HeapLedger.capacity
  rw [Nat.add_sub_cancel]
  exact (h.mem_header (mem_used.mp hb).1).1

theorem HeapLive.safe : HeapSafe hhdm σ where
  aligned := by
    intro p hp
    obtain ⟨b, hb, rfl⟩ := h.block_of_live hp
    have haddr := (h.sound b (mem_used.mp hb).1).addr
    have hbase := hhdm.aligned
    unfold Hhdm.ptr
    unfold PAGE_SIZE at hbase
    omega
  enough := by
    intro p n hp
    obtain ⟨b, hb, rfl⟩ := h.block_of_live (mem_map_of_mem hp)
    rw [h.capacity_eq hb]
    exact h.capacity _ n hp b hb rfl
  apart := by
    intro p hp q hq hpq
    obtain ⟨b, hb, rfl⟩ := h.block_of_live hp
    obtain ⟨c, hc, rfl⟩ := h.block_of_live hq
    rw [h.capacity_eq hb, h.capacity_eq hc]
    have hbc : Apart 32 b c := by
      have hne : b ≠ c := fun heq => hpq (by rw [heq])
      exact h.separate.of_mem (mem_used.mp hb).1 (mem_used.mp hc).1 hne
    unfold Apart Block.stop at hbc
    unfold Hhdm.ptr
    omega

theorem HeapLive.kept : HeapKept hhdm σ := by
  intro τ hcall p hp hp' x hlo hhi
  obtain ⟨c, hc, rfl⟩ := h.block_of_live hp
  have hmem := (mem_used.mp hc).1
  rw [h.capacity_eq hc] at hhi
  have hplace : c.addr + 32 ≤ hhdm.phys x ∧ hhdm.phys x < c.stop 32 := by
    unfold Hhdm.phys Block.stop
    unfold Hhdm.ptr at hlo hhi
    omega
  have hheaders : ∀ d ∈ bs, hhdm.phys x < d.addr ∨ d.addr + 32 ≤ hhdm.phys x := fun d hd =>
    payload_apart h.separate hmem hd hplace.1 hplace.2
  cases hcall with
  | malloc hn hmalloc =>
    obtain ⟨pre, b, post, hal⟩ := (h.toHeapOn.malloc hn).of_ok hmalloc
    apply hal.untouched _ hheaders
    have hapart := hal.apart hc
    unfold Apart Block.stop at hapart
    unfold Block.stop at hplace ⊢
    omega
  | free hq =>
    obtain ⟨b, hb, rfl⟩ := h.block_of_live (mem_map_of_mem hq)
    obtain ⟨pre, post, rfl⟩ := append_of_mem (mem_used.mp hb).1
    obtain ⟨bs', hfreed⟩ := h.toHeapOn.free
    exact hfreed.untouched _ hheaders (Or.inr (Nat.zero_le _))

theorem HeapLive.heapCoalesced : HeapCoalesced hhdm σ.heap (bs.map hhdm.ptr) := by
  unfold HeapCoalesced
  simp only [forall_mem_map]
  intro b hb hnext hjoin
  obtain ⟨pre, post, rfl⟩ := append_of_mem hb
  cases post with
  | nil => exact hnext h.next_eq
  | cons c post =>
    have hset := (coalesced_cons_cons.mp (coalesced_append_cons.mp h.coalesced).2).1
    have hfree := (h.mem_header hb).2
    have hcfree := (h.mem_header (b := c) (by simp)).2
    have hsize := (h.mem_header hb).1
    rw [h.next_eq, headPtr_cons, hcfree, hfree, hsize] at hjoin
    refine hset ⟨hjoin.1, hjoin.2.1, ?_⟩
    have hadj := hjoin.2.2
    unfold Hhdm.ptr at hadj
    unfold Block.stop
    omega

end Ledger

section Runs
variable (hhdm : Hhdm) (s : Machine) (s₀ : KHeap)
    (hmap : hhdm.base + 4096 * s.pmm.pages < 2 ^ 64) (hinit : kheapInit hhdm s = .ok s₀)
    (σ : HeapLedger) (hrun : Relation.ReflTransGen (HeapStep hhdm) ⟨s₀, []⟩ σ)
include hmap hinit hrun

/-- The heap's representation over every run of calls from `kheap_init`. -/
theorem kheap_representation : (∃ nodes, HeapList hhdm σ nodes) ∧ HeapServes hhdm σ := by
  obtain ⟨bs, hlive⟩ := heapLive_of_run hmap hinit hrun
  exact ⟨⟨_, hlive.heapList⟩, hlive.serves⟩

/-- Live payloads over every run of calls from `kheap_init`. -/
theorem kheap_live_data : HeapSafe hhdm σ ∧ HeapKept hhdm σ := by
  obtain ⟨bs, hlive⟩ := heapLive_of_run hmap hinit hrun
  exact ⟨hlive.safe, hlive.kept⟩

/-- The heap is coalesced after every call of every run from `kheap_init`. -/
theorem kheap_coalesced :
    ∃ nodes, Follows hhdm σ.heap σ.heap.start nodes ∧ HeapCoalesced hhdm σ.heap nodes := by
  obtain ⟨bs, hlive⟩ := heapLive_of_run hmap hinit hrun
  exact ⟨_, hlive.heapList.follows, hlive.heapCoalesced⟩

end Runs

def freeMemory : Machine where
  mem := fun _ => 0
  pmm := ⟨List.replicate 10000 0, 0, 80000, by rw [List.length_replicate]; decide⟩

def highHalf : Hhdm := ⟨0xffff800000000000, by decide, by decide⟩

theorem freeMemory_pages : freeMemory.pmm.pages = 80000 := by
  unfold Pmm.pages freeMemory
  rw [length_replicate]

theorem freeMemory_mapped : highHalf.base + 4096 * freeMemory.pmm.pages < 2 ^ 64 := by
  rw [freeMemory_pages]
  decide

theorem freeMemory_free (q : ℕ) : freeMemory.pmm.Free q := by
  have hbyte : freeMemory.pmm.byte (q / 8) = 0 :=
    getElem?_getD_replicate_default_eq _ _ _
  unfold Pmm.Free Pmm.test
  rw [hbyte]
  simp

theorem kheapInit_freeMemory : ∃ s₀ f, kheapInit highHalf freeMemory = .ok s₀ ∧
    Marked freeMemory.pmm f KHEAP_INIT_PAGES s₀.pmm ∧
    HeapOn highHalf s₀ [pageBlock f KHEAP_INIT_PAGES] := by
  have hinit := kheapInit_post freeMemory freeMemory_mapped
  rw [freeMemory_pages] at hinit
  obtain ⟨s₀, hcall, f, -, hmark, hon⟩ := hinit.returns_of_not fun _ he =>
    he.2 0 le_rfl (by decide) fun q _ _ => freeMemory_free q
  exact ⟨s₀, f, hcall, hmark, hon⟩

theorem kheap_first_request : ∃ s₀ p s₁, kheapInit highHalf freeMemory = .ok s₀ ∧
    kmalloc highHalf s₀ 100 = .ok (p, s₁) ∧
    Relation.ReflTransGen (HeapStep highHalf) ⟨s₀, []⟩ ⟨s₁, [(p, 100)]⟩ := by
  obtain ⟨s₀, f, hinit, -, hon⟩ := kheapInit_freeMemory
  have hservable : Servable 100 := by
    unfold Servable
    decide
  rcases hon.try 100 with ⟨l, b, r, s₁, -, -, hmalloc, -, -⟩ | ⟨hnone, -⟩
  · refine ⟨s₀, _, s₁, hinit, hmalloc 1, .single (.call ?_)⟩
    exact .malloc (σ := ⟨s₀, []⟩) hservable (hmalloc 1)
  · have hfits : Fits (heapAlign 100) (pageBlock f KHEAP_INIT_PAGES) := by
      refine ⟨rfl, ?_⟩
      exact (by decide : heapAlign 100 ≤ 25000 * 4096 - 32)
    exact absurd hfits (hnone _ (by simp))

theorem kheap_representation_freeMemory : ∃ s₀ p s₁, kheapInit highHalf freeMemory = .ok s₀ ∧
    kmalloc highHalf s₀ 100 = .ok (p, s₁) ∧
    (∃ nodes, HeapList highHalf ⟨s₁, [(p, 100)]⟩ nodes) ∧ HeapServes highHalf ⟨s₁, [(p, 100)]⟩ := by
  obtain ⟨s₀, p, s₁, hinit, hcall, hrun⟩ := kheap_first_request
  exact ⟨s₀, p, s₁, hinit, hcall,
    kheap_representation highHalf freeMemory s₀ freeMemory_mapped hinit _ hrun⟩

theorem kheap_live_data_freeMemory : ∃ s₀ p s₁, kheapInit highHalf freeMemory = .ok s₀ ∧
    kmalloc highHalf s₀ 100 = .ok (p, s₁) ∧
    HeapSafe highHalf ⟨s₁, [(p, 100)]⟩ ∧ HeapKept highHalf ⟨s₁, [(p, 100)]⟩ := by
  obtain ⟨s₀, p, s₁, hinit, hcall, hrun⟩ := kheap_first_request
  exact ⟨s₀, p, s₁, hinit, hcall,
    kheap_live_data highHalf freeMemory s₀ freeMemory_mapped hinit _ hrun⟩

theorem kheap_coalesced_freeMemory : ∃ s₀ p s₁, kheapInit highHalf freeMemory = .ok s₀ ∧
    kmalloc highHalf s₀ 100 = .ok (p, s₁) ∧
    ∃ nodes, Follows highHalf s₁ s₁.start nodes ∧ HeapCoalesced highHalf s₁ nodes := by
  obtain ⟨s₀, p, s₁, hinit, hcall, hrun⟩ := kheap_first_request
  exact ⟨s₀, p, s₁, hinit, hcall,
    kheap_coalesced highHalf freeMemory s₀ freeMemory_mapped hinit _ hrun⟩

end GarnOS
