import GarnOS.Heap.Free
import GarnOS.Heap.Malloc
import GarnOS.Library.Runs

/-! Runs of `kmalloc` and `kmfree`: the blocks in use are exactly those the clients hold. -/
namespace GarnOS
open ByteMemory BlockList Outcome FirstFit List Relation

/-- The heap with the pointers its clients hold and the sizes they asked for. -/
structure HeapLedger where
  heap : KHeap
  live : List (ℕ × ℕ)

def HeapLedger.pointers (σ : HeapLedger) : List ℕ := σ.live.map Prod.fst

/-- The page count `kheap_extend` would pass on fits in an `int`. -/
def Servable (n : ℕ) : Prop := heapPages (heapRound n) < 2 ^ 31

/-- One completed call; a call that panics has no successor state. -/
inductive HeapCall (hhdm : Hhdm) : HeapLedger → HeapLedger → Prop
  | malloc {σ : HeapLedger} {n p : ℕ} {s' : KHeap} (hn : Servable n)
      (h : kmalloc hhdm σ.heap n = .ok (p, s')) : HeapCall hhdm σ ⟨s', (p, n) :: σ.live⟩
  | free {σ : HeapLedger} {p n : ℕ} (hp : (p, n) ∈ σ.live) :
      HeapCall hhdm σ ⟨kmfree hhdm σ.heap p, σ.live.erase (p, n)⟩

/-- Between the calls the clients write to the bytes they asked for. -/
inductive HeapStep (hhdm : Hhdm) : HeapLedger → HeapLedger → Prop
  | call {σ τ : HeapLedger} (h : HeapCall hhdm σ τ) : HeapStep hhdm σ τ
  | write {σ : HeapLedger} {p n x : ℕ} (hp : (p, n) ∈ σ.live) (hlo : p ≤ x) (hhi : x < p + n)
      (v : BitVec 8) : HeapStep hhdm σ
        ⟨{ σ.heap with mem := Function.update σ.heap.mem (hhdm.phys x) v }, σ.live⟩

/-- The heap on the blocks `bs`, with the blocks in use held by clients. -/
structure HeapLive (hhdm : Hhdm) (σ : HeapLedger) (bs : List Block) : Prop
    extends HeapOn hhdm σ.heap bs where
  coalesced : Coalesced 32 bs
  live : σ.pointers.Perm ((used bs).map fun b => hhdm.ptr b + 32)
  capacity : ∀ p n, (p, n) ∈ σ.live → ∀ b ∈ used bs, p = hhdm.ptr b + 32 → n ≤ b.size

section Allocated
variable {hhdm : Hhdm} {s : KHeap} {b c : Block} {bs pre post : List Block} {n : ℕ} {r : ℕ × KHeap}

variable (h : Allocated hhdm s bs n r pre b post)
include h

theorem Allocated.used_perm :
    (used (pre ++ (carve 32 n b ++ post))).Perm (granted 32 n b :: used bs) := by
  have hbs : used pre ++ used post = used bs := by
    rcases h.place with rfl | ⟨rfl, rfl⟩
    · simp [h.fits.1]
    · simp
  rw [used_append, used_append, used_carve, ← hbs]
  exact perm_middle

theorem Allocated.apart (hc : c ∈ BlockList.used bs) : Apart 32 b c := by
  obtain ⟨hmem, hused⟩ := mem_used.mp hc
  rcases h.place with rfl | ⟨rfl, rfl⟩
  · rcases mem_append.mp hmem with hmem | hmem
    · exact h.separate.middle.1 c hmem
    · rcases mem_cons.mp hmem with rfl | hmem
      · rw [h.fits.1] at hused
        exact absurd hused (by decide)
      · exact h.separate.middle.2 c hmem
  · exact h.separate.middle.1 c hmem

theorem Allocated.coalesced (hbs : Coalesced 32 bs) :
    Coalesced 32 (pre ++ (carve 32 n b ++ post)) := by
  rcases h.place with rfl | ⟨rfl, rfl⟩
  · exact hbs.carve n h.fits.1
  · rw [append_nil]
    exact hbs.append_carve n b

end Allocated

section Steps
variable {hhdm : Hhdm} {σ τ : HeapLedger} {bs : List Block} {b : Block} {p n : ℕ}

theorem HeapLive.block_of_live (h : HeapLive hhdm σ bs) (hp : p ∈ σ.pointers) :
    ∃ b ∈ used bs, p = hhdm.ptr b + 32 := by
  obtain ⟨b, hb, hptr⟩ := mem_map.mp (h.live.mem_iff.mp hp)
  exact ⟨b, hb, hptr.symm⟩

theorem ptr_add_inj {b c : Block} (h : hhdm.ptr b + 32 = hhdm.ptr c + 32) : b.addr = c.addr := by
  unfold Hhdm.ptr at h
  omega

theorem HeapLive.malloc (h : HeapLive hhdm σ bs) (hn : Servable n) {s' : KHeap}
    (hcall : kmalloc hhdm σ.heap n = .ok (p, s')) :
    ∃ bs', HeapLive hhdm ⟨s', (p, n) :: σ.live⟩ bs' := by
  obtain ⟨pre, b, post, hal⟩ := (h.toHeapOn.malloc hn).of_ok hcall
  have hused := hal.used_perm
  have hptr : p = hhdm.ptr b + 32 := hal.ptr
  refine ⟨_, hal.heap, hal.coalesced h.coalesced, ?_, ?_⟩
  · refine List.Perm.trans ?_ (hused.map _).symm
    rw [map_cons]
    have hgr : hhdm.ptr (granted 32 (heapRound n) b) + 32 = p := by
      rw [hptr, Hhdm.ptr, granted_addr, Hhdm.ptr]
    rw [hgr]
    exact h.live.cons p
  · intro q m hq c hc hqc
    have hround : n ≤ heapRound n := by
      unfold heapRound
      omega
    rw [hused.mem_iff, mem_cons] at hc
    -- the new pointer belongs to the new block only, the old ones to the old blocks
    rcases mem_cons.mp hq with heq | hq
    · cases heq
      rcases hc with rfl | hc
      · exact hround.trans (le_granted_size hal.fits.2)
      · have hsame := ptr_add_inj (hptr.symm.trans hqc)
        exact absurd hsame ((hal.apart hc).ne (by decide))
    · rcases hc with rfl | hc
      · obtain ⟨d, hd, hqd⟩ := h.block_of_live (mem_map_of_mem hq)
        have hsame := ptr_add_inj (hqc.symm.trans hqd)
        rw [granted_addr] at hsame
        exact absurd hsame ((hal.apart hd).ne (by decide))
      · exact h.capacity q m hq c hc hqc

theorem HeapLive.free (h : HeapLive hhdm σ bs) (hp : (p, n) ∈ σ.live) :
    ∃ bs', HeapLive hhdm ⟨kmfree hhdm σ.heap p, σ.live.erase (p, n)⟩ bs' := by
  obtain ⟨b, hb, rfl⟩ := h.block_of_live (mem_map_of_mem hp)
  obtain ⟨hmem, hbused⟩ := mem_used.mp hb
  obtain ⟨pre, post, rfl⟩ := append_of_mem hmem
  obtain ⟨bs', hfreed⟩ := h.toHeapOn.free
  have hrest : (used (pre ++ b :: post)).Perm (b :: used bs') := by
    rw [hfreed.used, used_append, used_cons_used hbused]
    exact perm_middle
  have herase := perm_cons_erase hp
  refine ⟨bs', hfreed.heap, hfreed.coalesced h.coalesced, ?_, ?_⟩
  · have hall := ((herase.map Prod.fst).symm.trans h.live).trans (hrest.map _)
    exact hall.cons_inv
  · intro q m hq c hc hqc
    exact h.capacity q m (mem_of_mem_erase hq) c
      (hrest.mem_iff.mpr (mem_cons_of_mem _ hc)) hqc

theorem payload_apart {c : Block} (hsep : Separate 32 bs) (hb : b ∈ bs) (hc : c ∈ bs) {x : ℕ}
    (hlo : b.addr + 32 ≤ x) (hhi : x < b.stop 32) : x < c.addr ∨ c.addr + 32 ≤ x := by
  by_cases hbc : b = c
  · subst hbc
    omega
  · have hapart := hsep.of_mem hb hc hbc
    unfold Apart Block.stop at *
    omega

theorem HeapLive.write (h : HeapLive hhdm σ bs) {x : ℕ} (hp : (p, n) ∈ σ.live) (hlo : p ≤ x)
    (hhi : x < p + n) (v : BitVec 8) :
    HeapLive hhdm ⟨{ σ.heap with mem := Function.update σ.heap.mem (hhdm.phys x) v },
      σ.live⟩ bs := by
  obtain ⟨b, hb, rfl⟩ := h.block_of_live (mem_map_of_mem hp)
  have hcap := h.capacity _ _ hp b hb rfl
  have hmem := (mem_used.mp hb).1
  have hplace : b.addr + 32 ≤ hhdm.phys x ∧ hhdm.phys x < b.stop 32 := by
    unfold Hhdm.phys Block.stop
    unfold Hhdm.ptr at hlo hhi
    omega
  have hseg : Segment hhdm (Function.update σ.heap.mem (hhdm.phys x) v) 0 0 bs := by
    apply h.segment.congr
    intro c hc
    have hout := payload_apart h.separate hmem hc hplace.1 hplace.2
    apply readHeader_congr
    intro y h1 h2
    exact Function.update_of_ne (by omega) _ _
  exact ⟨⟨⟨hseg, h.start, h.last, h.separate, h.bound⟩, h.nonempty, h.sound, h.total, h.enough,
    h.direct⟩, h.coalesced, h.live, h.capacity⟩

variable (h : HeapLive hhdm σ bs)
include h

theorem HeapLive.call (hcall : HeapCall hhdm σ τ) : ∃ bs', HeapLive hhdm τ bs' := by
  cases hcall with
  | malloc hn hcall => exact h.malloc hn hcall
  | free hp => exact h.free hp

theorem HeapLive.step (hstep : HeapStep hhdm σ τ) : ∃ bs', HeapLive hhdm τ bs' := by
  cases hstep with
  | call hcall => exact h.call hcall
  | write hp hlo hhi v => exact ⟨bs, h.write hp hlo hhi v⟩

theorem HeapLive.run (hrun : ReflTransGen (HeapStep hhdm) σ τ) :
    ∃ bs', HeapLive hhdm τ bs' := by
  have hkeep : ∀ a b, (∃ cs, HeapLive hhdm a cs) → HeapStep hhdm a b → ∃ cs, HeapLive hhdm b cs :=
    fun a b ⟨cs, hcs⟩ hstep => hcs.step hstep
  exact @Runs.invariant _ _ (fun ρ => ∃ cs, HeapLive hhdm ρ cs) _ _ hkeep ⟨bs, h⟩ hrun

end Steps

theorem kheapInit_post {hhdm : Hhdm} (s : Machine)
    (hmap : hhdm.base + 4096 * s.pmm.pages < 2 ^ 64) :
    Post (kheapInit hhdm s) (fun t => ∃ f, HighFirst s.pmm KHEAP_INIT_PAGES f ∧
        Marked s.pmm f KHEAP_INIT_PAGES t.pmm ∧ HeapOn hhdm t [pageBlock f KHEAP_INIT_PAGES])
      (fun e => e = outOfMemory ∧ NoRun s.pmm.Free 0 s.pmm.pages KHEAP_INIT_PAGES) := by
  apply (pmmAllocate_post s (n := KHEAP_INIT_PAGES) (by decide)).bind
  rintro ⟨_, machine⟩ ⟨f, rfl, hfirst, hmark, hmem⟩
  obtain ⟨hfit, hrun⟩ := hfirst.fits
  have hcard := hmark.card_setBits (Pmm.disjoint_of_run hrun)
  have hpages := pages_congr hmark.length
  dsimp only at hcard hpages
  have hstop := pageBlock_stop f (k := KHEAP_INIT_PAGES) (by decide)
  have hbound : (pageBlock f KHEAP_INIT_PAGES).stop 32 + hhdm.base < 2 ^ 64 := by
    rw [hstop]
    omega
  have hptr : (f * 4096 + hhdm.base) % 2 ^ 64 = hhdm.ptr (pageBlock f KHEAP_INIT_PAGES) :=
    ptr_mod hbound
  apply post_pure.mpr
  refine ⟨f, hfirst, hmark, ⟨⟨?_, trivial⟩, hptr, hptr, pairwise_singleton _ _, ?_⟩, by simp,
    ?_, ?_, ?_, ?_⟩
  · rw [hptr, phys_ptr, readHeader_setFlags, readHeader_setNext, readHeader_setPrev,
      readHeader_setSize]
    rfl
  · simpa using hbound
  · have hsub : Finset.Ico f (f + KHEAP_INIT_PAGES) ⊆ machine.pmm.setBits :=
      hmark.setBits ▸ Finset.subset_union_right
    simpa using pageBlock_sound (by decide) hsub
  · rfl
  · dsimp only
    unfold PAGE_SIZE
    omega
  · dsimp only
    omega

theorem heapLive_of_run {hhdm : Hhdm} {s : Machine} {s₀ : KHeap} {σ : HeapLedger}
    (hmap : hhdm.base + 4096 * s.pmm.pages < 2 ^ 64) (hinit : kheapInit hhdm s = .ok s₀)
    (hrun : ReflTransGen (HeapStep hhdm) ⟨s₀, []⟩ σ) : ∃ bs, HeapLive hhdm σ bs := by
  obtain ⟨f, -, -, hon⟩ := (kheapInit_post s hmap).of_ok hinit
  have hstart : HeapLive hhdm ⟨s₀, []⟩ [pageBlock f KHEAP_INIT_PAGES] := by
    refine ⟨hon, isChain_singleton _, ?_, by simp⟩
    rw [used_cons_free (by rfl)]
    exact List.Perm.nil
  exact hstart.run hrun

end GarnOS
