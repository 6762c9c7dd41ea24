import GarnOS.Heap.Refine

/-! What holds of the heap between two calls. -/
namespace GarnOS
open ByteMemory BlockList List

/-- A block as the heap keeps it: aligned, and made of pages the allocator has given out. -/
structure Sound (p : Pmm) (b : Block) : Prop where
  addr : b.addr % 16 = 0
  size : b.size % 16 = 0
  backed : ∀ x, b.addr ≤ x → x < b.stop 32 → x / 4096 ∈ p.setBits

/-- The heap on the blocks `bs`. The direct map covers all of memory. -/
structure HeapOn (hhdm : Hhdm) (s : KHeap) (bs : List Block) : Prop extends Laid hhdm s bs where
  nonempty : bs ≠ []
  sound : ∀ b ∈ bs, Sound s.pmm b
  total : total 32 bs = s.kheapSize
  enough : s.kheapSize ≤ 4096 * s.pmm.setBits.card
  direct : hhdm.base + 4096 * s.pmm.pages < 2 ^ 64

section Sound
variable {p p' : Pmm} {a b : Block} {n : ℕ}

theorem Sound.mono (h : Sound p b) (hsub : p.setBits ⊆ p'.setBits) :
    Sound p' b :=
  ⟨h.addr, h.size, fun x h1 h2 => hsub (h.backed x h1 h2)⟩

theorem Sound.carve (h : Sound p b) (hn : n % 16 = 0) : ∀ c ∈ carve 32 n b, Sound p c := by
  intro c hc
  have hin := mem_carve hc
  have haddr := h.addr
  have hsize := h.size
  have hbacked : ∀ x, c.addr ≤ x → x < c.stop 32 → x / 4096 ∈ p.setBits := fun x h1 h2 =>
    h.backed x (by omega) (by omega)
  unfold BlockList.carve at hc
  split at hc
  · rw [mem_singleton.mp hc] at hbacked ⊢
    exact ⟨haddr, hsize, hbacked⟩
  · simp only [mem_cons, not_mem_nil, or_false] at hc
    rcases hc with rfl | rfl
    · exact ⟨haddr, hn, hbacked⟩
    · refine ⟨?_, ?_, hbacked⟩
      all_goals
        dsimp only
        omega

theorem Sound.join (ha : Sound p a) (hb : Sound p b) (hadj : a.stop 32 = b.addr) :
    Sound p (join 32 a b) := by
  have hasize := ha.size
  have hbsize := hb.size
  refine ⟨ha.addr, ?_, fun x h1 h2 => ?_⟩
  · unfold BlockList.join
    dsimp only
    omega
  · rw [join_stop hadj] at h2
    by_cases hx : x < a.stop 32
    · exact ha.backed x h1 hx
    · exact hb.backed x (by omega) h2

theorem Sound.set_free (h : Sound p b) (free : Bool) : Sound p { b with free } :=
  ⟨h.addr, h.size, h.backed⟩

end Sound

section HeapOn
variable {hhdm : Hhdm} {s s' : KHeap} {b : Block} {bs cs pre post : List Block} {n : ℕ}

theorem HeapOn.rearrange (h : HeapOn hhdm s bs) (hlaid : Laid hhdm s' cs) (hne : cs ≠ [])
    (hsound : ∀ b ∈ cs, Sound s.pmm b) (htotal : BlockList.total 32 cs = BlockList.total 32 bs)
    (hpmm : s'.pmm = s.pmm) (hsize : s'.kheapSize = s.kheapSize) : HeapOn hhdm s' cs where
  toLaid := hlaid
  nonempty := hne
  sound := by
    rw [hpmm]
    exact hsound
  total := by rw [htotal, hsize, h.total]
  enough := by
    rw [hsize, hpmm]
    exact h.enough
  direct := by
    rw [hpmm]
    exact h.direct

theorem HeapOn.carve (h : HeapOn hhdm s (pre ++ b :: post)) (hn : n % 16 = 0) :
    ∃ s', kheapCarve hhdm s (hhdm.ptr b) n = (hhdm.ptr b + 32, s') ∧
      HeapOn hhdm s' (pre ++ (carve 32 n b ++ post)) ∧
      Untouched (pre ++ b :: post) b.addr (b.stop 32) s.mem s'.mem := by
  obtain ⟨s', hcall, hlaid, hout, hpmm, hsize⟩ := h.toLaid.carve n
  refine ⟨s', hcall, h.rearrange hlaid ?_ ?_ ?_ hpmm hsize, hout⟩
  · have hmem := granted_mem_carve 32 n b
    exact ne_nil_of_mem (mem_append_right _ (mem_append_left _ hmem))
  · have hsound := h.sound
    simp only [forall_mem_append, forall_mem_cons] at hsound ⊢
    exact ⟨hsound.1, hsound.2.1.carve hn, hsound.2.2⟩
  · simp [total_carve]

end HeapOn

end GarnOS
