import GarnOS.Heap.Layout

/-! Each heap operation on memory is an operation on the list of blocks. -/
namespace GarnOS
open ByteMemory BlockList Outcome List Nat

structure Laid (hhdm : Hhdm) (s : KHeap) (bs : List Block) : Prop where
  segment : Segment hhdm s.mem 0 0 bs
  start : s.start = headPtr hhdm 0 bs
  last : s.kheapEnd = lastPtr hhdm 0 bs
  separate : Separate 32 bs
  bound : ∀ b ∈ bs, b.stop 32 + hhdm.base < 2 ^ 64

/-- Only headers of `bs` and bytes of `[lo, hi)` differ. -/
def Untouched (bs : List Block) (lo hi : ℕ) (m m' : Mem) : Prop :=
  ∀ x, (∀ b ∈ bs, x < b.addr ∨ b.addr + 32 ≤ x) → x < lo ∨ hi ≤ x → m' x = m x

section Pointers
variable {hhdm : Hhdm} {b c : Block} {pre post : List Block}

@[simp] theorem phys_ptr (hhdm : Hhdm) (b : Block) : hhdm.phys (hhdm.ptr b) = b.addr :=
  Nat.add_sub_cancel b.addr hhdm.base

theorem ptr_ne_zero (hhdm : Hhdm) (b : Block) : hhdm.ptr b ≠ 0 := by
  have hpos := hhdm.pos
  unfold Hhdm.ptr
  omega

theorem ptr_lt (h : b.stop 32 + hhdm.base < 2 ^ 64) : hhdm.ptr b + 32 + b.size < 2 ^ 64 := by
  unfold Block.stop at h
  unfold Hhdm.ptr
  omega

theorem ptr_mod (h : b.stop 32 + hhdm.base < 2 ^ 64) : hhdm.ptr b % 2 ^ 64 = hhdm.ptr b := by
  have hlt := ptr_lt h
  exact mod_eq_of_lt (by omega)

theorem headPtr_mod (h : ∀ b ∈ post, b.stop 32 + hhdm.base < 2 ^ 64) :
    headPtr hhdm 0 post % 2 ^ 64 = headPtr hhdm 0 post := by
  cases post with
  | nil => rfl
  | cons b post => exact ptr_mod (h b (by simp))

theorem ptr_eq_last_iff (h : Separate 32 (pre ++ b :: post)) :
    hhdm.ptr b = lastPtr hhdm 0 (pre ++ b :: post) ↔ post = [] := by
  rw [lastPtr_append_cons]
  constructor
  · intro heq
    by_contra hne
    obtain ⟨d, hd, hlast⟩ := lastPtr_mem hhdm hne
    rw [hlast] at heq
    have hapart := h.middle.2 d hd
    exact hapart.ne (by decide) (add_right_cancel heq)
  · rintro rfl
    rfl

end Pointers

section Splice
variable {hhdm : Hhdm} {m m' : Mem} {next prev p : ℕ} {pre post : List Block}

/-- Exchange the middle of a list: the part before keeps its headers, and the part after
learns its new predecessor. -/
theorem Segment.splice (mid mid' : List Block) (h : Segment hhdm m next prev (pre ++ (mid ++ post)))
    (hpre : ∀ c ∈ pre, readHeader m' c.addr = readHeader m c.addr)
    (hfirst : headPtr hhdm (headPtr hhdm next post) mid' = headPtr hhdm (headPtr hhdm next post) mid)
    (hmid : Segment hhdm m' (headPtr hhdm next post) (lastPtr hhdm prev pre) mid')
    (hpost : Segment hhdm m' next (lastPtr hhdm (lastPtr hhdm prev pre) mid') post) :
    Segment hhdm m' next prev (pre ++ (mid' ++ post)) := by
  rw [segment_append, headPtr_append] at h ⊢
  rw [hfirst]
  exact ⟨h.1.congr hpre, segment_append.mpr ⟨hmid, hpost⟩⟩

theorem Segment.relink (h : Segment hhdm m 0 prev post) (hsep : Separate 32 post)
    (hp : p < 2 ^ 64) :
    Segment hhdm (if headPtr hhdm 0 post ≠ 0 then
      setPrev m (hhdm.phys (headPtr hhdm 0 post)) p else m) 0 p post := by
  cases post with
  | nil => trivial
  | cons d post =>
    rw [if_pos (by exact ptr_ne_zero hhdm d), headPtr_cons, phys_ptr]
    refine h.set_prev ?_ fun c hc => ?_
    · rw [readHeader_setPrev, mod_eq_of_lt hp]
    · have hapart : Apart 32 d c := (pairwise_cons.mp hsep).1 c hc
      exact (setPrev_headerOnly m d.addr p).readHeader hapart.headers

theorem relink_untouched (hhdm : Hhdm) (m : Mem) (post : List Block) (p : ℕ) :
    Untouched post 0 0 m (if headPtr hhdm 0 post ≠ 0 then
      setPrev m (hhdm.phys (headPtr hhdm 0 post)) p else m) := by
  intro x hx _
  cases post with
  | nil => rfl
  | cons d post =>
    rw [if_pos (by exact ptr_ne_zero hhdm d), headPtr_cons, phys_ptr]
    exact setPrev_headerOnly m d.addr p x (hx d (by simp))

variable {bs : List Block} {lo hi : ℕ}

theorem Untouched.readHeader {a : ℕ} (h : Untouched bs lo hi m m')
    (hbs : ∀ b ∈ bs, a + 32 ≤ b.addr ∨ b.addr + 32 ≤ a) (hrange : a + 32 ≤ lo ∨ hi ≤ a) :
    readHeader m' a = readHeader m a := by
  apply readHeader_congr
  intro x h1 h2
  refine h x (fun b hb => ?_) (by omega)
  have hb := hbs b hb
  omega

theorem Untouched.refl (bs : List Block) (lo hi : ℕ) (m : Mem) : Untouched bs lo hi m m :=
  fun _ _ _ => rfl

theorem Untouched.trans {m'' : Mem} (h : Untouched bs lo hi m m') (h' : Untouched bs lo hi m' m'') :
    Untouched bs lo hi m m'' :=
  fun x hx hr => (h' x hx hr).trans (h x hx hr)

theorem Untouched.mono {cs : List Block} (h : Untouched cs lo hi m m')
    (hsub : ∀ c ∈ cs, ∃ b ∈ bs, b.addr = c.addr) : Untouched bs lo hi m m' := by
  intro x hx hr
  apply h x _ hr
  intro c hc
  obtain ⟨b, hb, haddr⟩ := hsub c hc
  exact haddr ▸ hx b hb

theorem Untouched.of_concat {c : Block} (h : Untouched (bs ++ [c]) c.addr (c.stop 32) m m') :
    Untouched bs c.addr (c.stop 32) m m' := by
  intro x hx hr
  refine h x (fun b hb => ?_) hr
  rcases mem_append.mp hb with hb | hb
  · exact hx b hb
  · rw [mem_singleton.mp hb]
    unfold Block.stop at hr
    omega

theorem HeaderOnly.untouched {b : Block} (lo hi : ℕ) (h : HeaderOnly b.addr m m') (hb : b ∈ bs) :
    Untouched bs lo hi m m' :=
  fun x hx _ => h x (hx b hb)

end Splice

section Operations
variable {hhdm : Hhdm} {s : KHeap} {b : Block} {pre post : List Block}

section
variable (h : Laid hhdm s (pre ++ b :: post))
include h

theorem Laid.node : readHeader s.mem b.addr =
    nodeHeader (lastPtr hhdm 0 pre) (headPtr hhdm 0 post) b :=
  (segment_append.mp h.segment).2.1

theorem Laid.header : s.header hhdm (hhdm.ptr b) =
    nodeHeader (lastPtr hhdm 0 pre) (headPtr hhdm 0 post) b := by
  unfold KHeap.header
  rw [phys_ptr, h.node]

theorem Laid.size_eq : (s.header hhdm (hhdm.ptr b)).size = b.size := by
  rw [h.header]
  rfl

theorem Laid.flags_eq : (s.header hhdm (hhdm.ptr b)).flags = flagByte b.free := by
  rw [h.header]
  rfl

theorem Laid.next_eq : (s.header hhdm (hhdm.ptr b)).next = headPtr hhdm 0 post := by
  rw [h.header]
  rfl

theorem Laid.prev_eq : (s.header hhdm (hhdm.ptr b)).prev = lastPtr hhdm 0 pre := by
  rw [h.header]
  rfl

end

theorem lastPtr_splice (mid mid' : List Block) (hpost : post ≠ []) :
    lastPtr hhdm 0 (pre ++ (mid' ++ post)) = lastPtr hhdm 0 (pre ++ (mid ++ post)) := by
  obtain ⟨d, -, hlast⟩ := lastPtr_mem hhdm hpost
  simp [lastPtr_append, hlast]

theorem Laid.splice {s' : KHeap} (mid mid' : List Block) (h : Laid hhdm s (pre ++ (mid ++ post)))
    (hpre : ∀ c ∈ pre, readHeader s'.mem c.addr = readHeader s.mem c.addr)
    (hfirst : headPtr hhdm (headPtr hhdm 0 post) mid' = headPtr hhdm (headPtr hhdm 0 post) mid)
    (hmid : Segment hhdm s'.mem (headPtr hhdm 0 post) (lastPtr hhdm 0 pre) mid')
    (hpost : Segment hhdm s'.mem 0 (lastPtr hhdm (lastPtr hhdm 0 pre) mid') post)
    (hstart : s'.start = s.start) (hend : s'.kheapEnd = lastPtr hhdm 0 (pre ++ (mid' ++ post)))
    (hsep : Separate 32 (pre ++ (mid' ++ post)))
    (hbound : ∀ b ∈ mid', b.stop 32 + hhdm.base < 2 ^ 64) :
    Laid hhdm s' (pre ++ (mid' ++ post)) := by
  refine ⟨h.segment.splice mid mid' hpre hfirst hmid hpost, ?_, hend, hsep, fun c hc => ?_⟩
  · rw [hstart, h.start, headPtr_append, headPtr_append, headPtr_append, headPtr_append, hfirst]
  · rw [mem_append, mem_append] at hc
    rcases hc with hc | hc | hc
    · exact h.bound c (by simp [hc])
    · exact hbound c hc
    · exact h.bound c (by simp [hc])

theorem Laid.set_flag (h : Laid hhdm s (pre ++ b :: post)) (free : Bool) :
    Laid hhdm { s with mem := setFlags s.mem b.addr (flagByte free) }
      (pre ++ { b with free } :: post) := by
  have hmiddle := h.separate.middle
  have honly := setFlags_headerOnly s.mem b.addr (flagByte free)
  have hsame : ∀ c, Apart 32 b c →
      readHeader (setFlags s.mem b.addr (flagByte free)) c.addr = readHeader s.mem c.addr :=
    fun c hc => honly.readHeader hc.headers
  apply Laid.splice [b] [{ b with free }] h
  · exact fun c hc => hsame c (hmiddle.1 c hc)
  · rfl
  · refine ⟨?_, trivial⟩
    rw [readHeader_setFlags, h.node]
    rfl
  · have hpost := (segment_append.mp h.segment).2.2
    exact hpost.congr fun c hc => hsame c (hmiddle.2 c hc)
  · rfl
  · refine h.last.trans ?_
    rw [lastPtr_append_cons, singleton_append, lastPtr_append_cons]
    rfl
  · apply h.separate.within _ (pairwise_singleton _ _)
    intro c hc
    rw [mem_singleton.mp hc]
    exact ⟨le_rfl, le_rfl⟩
  · intro c hc
    rw [mem_singleton.mp hc]
    exact h.bound b (by simp)

/-- The two blocks `kheap_create_block` makes out of `b`. -/
def splitBlock (n : ℕ) (b : Block) : List Block :=
  [{ b with size := n }, ⟨b.addr + 32 + n, b.size - (n + 32), true⟩]

variable {n : ℕ}

theorem createBlockStores_spec (hhdm : Hhdm) (b c : Block) {m : Mem} (hbc : b.addr + 32 ≤ c.addr)
    (hsize : (readHeader m b.addr).size = n + 32 + c.size) (hb : hhdm.ptr b < 2 ^ 64)
    (hc : hhdm.ptr c < 2 ^ 64) (hlt : n + 32 + c.size < 2 ^ 64)
    (hnext : (readHeader m b.addr).next < 2 ^ 64) :
    let m' := createBlockStores hhdm m (hhdm.ptr b) (hhdm.ptr c) n
    readHeader m' b.addr = { readHeader m b.addr with size := n, next := hhdm.ptr c } ∧
      readHeader m' c.addr = ⟨c.size, KHEAP_FLAGS_FREE, (readHeader m b.addr).next, hhdm.ptr b⟩ ∧
      ∀ x, x < b.addr ∨ b.addr + 32 ≤ x → x < c.addr ∨ c.addr + 32 ≤ x → m' x = m x := by
  simp only [createBlockStores, phys_ptr, headerSize]
  have hrest : u64 ((readHeader m b.addr).size - (n + 32 : ℕ)) = c.size := by
    rw [hsize]
    unfold u64
    omega
  have hkeepb : ∀ {m m' : Mem}, HeaderOnly c.addr m m' →
      readHeader m' b.addr = readHeader m b.addr := fun h => h.readHeader (Or.inr hbc)
  have hkeepc : ∀ {m m' : Mem}, HeaderOnly b.addr m m' →
      readHeader m' c.addr = readHeader m c.addr := fun h => h.readHeader (Or.inl hbc)
  refine ⟨?_, ?_, fun x hxb hxc => ?_⟩
  · rw [hkeepb (setFlags_headerOnly _ _ _), hkeepb (setPrev_headerOnly _ _ _), readHeader_setNext,
      hkeepb (setNext_headerOnly _ _ _), readHeader_setSize, hkeepb (setSize_headerOnly _ _ _),
      hkeepb (memset_headerOnly _ _ _), mod_eq_of_lt hc, mod_eq_of_lt (by omega)]
  · rw [readHeader_setFlags, readHeader_setPrev, hkeepc (setNext_headerOnly _ _ _),
      readHeader_setNext, hkeepc (setSize_headerOnly _ _ _), readHeader_setSize, readHeader_setSize,
      hkeepb (setSize_headerOnly _ _ _), hkeepb (memset_headerOnly _ _ _), hrest, mod_eq_of_lt hb,
      mod_eq_of_lt hnext, mod_eq_of_lt (by omega)]
  · rw [setFlags_headerOnly _ _ _ x hxc, setPrev_headerOnly _ _ _ x hxc,
      setNext_headerOnly _ _ _ x hxb, setNext_headerOnly _ _ _ x hxc,
      setSize_headerOnly _ _ _ x hxb, setSize_headerOnly _ _ _ x hxc,
      memset_headerOnly _ _ _ x hxc]

theorem headPtr_lt (hhdm : Hhdm) (h : ∀ c ∈ post, c.stop 32 + hhdm.base < 2 ^ 64) :
    headPtr hhdm 0 post < 2 ^ 64 := by
  rw [← headPtr_mod h]
  exact mod_lt _ (by decide)

theorem splitBlock_within (hn : n + 32 < b.size) :
    ∀ d ∈ splitBlock n b, b.addr ≤ d.addr ∧ d.stop 32 ≤ b.stop 32 := by
  intro d hd
  simp only [splitBlock, mem_cons, not_mem_nil, or_false] at hd
  unfold Block.stop
  rcases hd with rfl | rfl
  all_goals
    dsimp only
    omega

theorem splitBlock_separate (h : Separate 32 (pre ++ b :: post)) (hn : n + 32 < b.size) :
    Separate 32 (pre ++ (splitBlock n b ++ post)) := by
  apply h.within
  · refine pairwise_pair.mpr (Or.inl ?_)
    unfold Block.stop
    dsimp only
    omega
  · exact splitBlock_within hn

theorem Laid.create (h : Laid hhdm s (pre ++ b :: post)) (hn : n + 32 < b.size) :
    Laid hhdm (kheapCreateBlock hhdm s (hhdm.ptr b) n) (pre ++ (splitBlock n b ++ post)) ∧
      Untouched (pre ++ b :: post) b.addr (b.stop 32) s.mem
        (kheapCreateBlock hhdm s (hhdm.ptr b) n).mem := by
  have hbound := h.bound b (by simp)
  have hptr := ptr_lt hbound
  have hmiddle := h.separate.middle
  have hnode := h.node
  have hpostlt : headPtr hhdm 0 post < 2 ^ 64 :=
      headPtr_lt hhdm fun c hc => h.bound c (by simp [hc])
  obtain ⟨c, hc⟩ : ∃ c : Block, c = ⟨b.addr + 32 + n, b.size - (n + 32), true⟩ := ⟨_, rfl⟩
  have hcaddr : c.addr = b.addr + 32 + n := by rw [hc]
  have hcsize : c.size = b.size - (n + 32) := by rw [hc]
  have hnewh : (hhdm.ptr b + headerSize + n) % 2 ^ 64 = hhdm.ptr c := by
    unfold Hhdm.ptr headerSize at *
    omega
  have hsplit : splitBlock n b = [{ b with size := n }, c] := by rw [hc]; rfl
  have hclt : hhdm.ptr c < 2 ^ 64 := by
    rw [← hnewh]
    exact mod_lt _ (by decide)
  obtain ⟨hb1, hc1, hout⟩ := createBlockStores_spec hhdm b c (m := s.mem) (n := n) (by omega)
    (by rw [hnode]; exact (by omega : b.size = n + 32 + c.size)) (by omega) hclt (by omega)
    (by rw [hnode]; exact hpostlt)
  set m := createBlockStores hhdm s.mem (hhdm.ptr b) (hhdm.ptr c) n
  have hnext : (readHeader m c.addr).next = headPtr hhdm 0 post := by rw [hc1, hnode]; rfl
  -- the rest of the list keeps away from the whole block, so also from the new header
  have hapart : ∀ d, Apart 32 b d → (d.addr + 32 ≤ b.addr ∨ b.addr + 32 ≤ d.addr) ∧
      (d.addr + 32 ≤ c.addr ∨ c.addr + 32 ≤ d.addr) := by
    intro d hd
    unfold Apart Block.stop at hd
    omega
  have hsame : ∀ d, Apart 32 b d → readHeader m d.addr = readHeader s.mem d.addr := by
    intro d hd
    obtain ⟨h1, h2⟩ := hapart d hd
    apply readHeader_congr
    intro x hx1 hx2
    exact hout x (by omega) (by omega)
  have hsegpost : Segment hhdm m 0 (hhdm.ptr b) post :=
    (segment_append.mp h.segment).2.2.congr fun d hd => hsame d (hmiddle.2 d hd)
  have hseppost : Separate 32 post := (pairwise_append.mp h.separate).2.1.of_cons
  have hrelink := hsegpost.relink hseppost hclt
  have hkeep := relink_untouched hhdm m post (hhdm.ptr c)
  have hmem : (kheapCreateBlock hhdm s (hhdm.ptr b) n).mem = if headPtr hhdm 0 post ≠ 0 then
      setPrev m (hhdm.phys (headPtr hhdm 0 post)) (hhdm.ptr c) else m := by
    simp only [kheapCreateBlock, hnewh, phys_ptr]
    rw [hnext]
  have hend : (kheapCreateBlock hhdm s (hhdm.ptr b) n).kheapEnd =
      if hhdm.ptr b = s.kheapEnd then hhdm.ptr c else s.kheapEnd := by
    simp only [kheapCreateBlock, hnewh]
  have hheader : ∀ a, (∀ d ∈ post, a + 32 ≤ d.addr ∨ d.addr + 32 ≤ a) →
      readHeader (kheapCreateBlock hhdm s (hhdm.ptr b) n).mem a = readHeader m a := by
    intro a ha
    rw [hmem]
    exact hkeep.readHeader ha (Or.inr (zero_le a))
  rw [hsplit]
  constructor
  · apply Laid.splice [b] [{ b with size := n }, c] h
    · intro d hd
      rw [hheader d.addr ?_, hsame d (hmiddle.1 d hd)]
      intro e he
      have hde : Apart 32 d e := (pairwise_append.mp h.separate).2.2 d hd e (by simp [he])
      exact hde.headers
    · rfl
    · refine ⟨?_, ?_, trivial⟩
      · rw [hheader b.addr fun d hd => (hmiddle.2 d hd).headers, hb1, hnode]
        rfl
      · rw [hheader c.addr fun d hd => (hapart d (hmiddle.2 d hd)).2.symm, hc1, hnode, hc]
        rfl
    · rw [hmem]
      exact hrelink
    · rfl
    · rw [hend, h.last]
      by_cases hempty : post = []
      · rw [if_pos ((ptr_eq_last_iff h.separate).mpr hempty), hempty]
        simp [lastPtr_append, lastPtr]
      · rw [if_neg (mt (ptr_eq_last_iff h.separate).mp hempty)]
        exact (lastPtr_splice [b] _ hempty).symm
    · exact hsplit ▸ splitBlock_separate h.separate hn
    · intro d hd
      have hin := splitBlock_within hn d (hsplit ▸ hd)
      omega
  · intro x hx hrange
    rw [hmem, hkeep x (fun d hd => hx d (by simp [hd])) (Or.inr (zero_le x))]
    unfold Block.stop at hrange
    exact hout x (hx b (by simp)) (by omega)

theorem kheapTake_ptr (h : Laid hhdm s (pre ++ b :: post)) : kheapTake hhdm s (hhdm.ptr b) =
    (hhdm.ptr b + 32, { s with mem := setFlags s.mem b.addr (flagByte false) }) := by
  have hlt := ptr_lt (h.bound b (by simp))
  have hflag : flagByte b.free &&& ~~~KHEAP_FLAGS_FREE = flagByte false := by
    cases b.free <;> decide
  have hret : (hhdm.ptr b + headerSize) % 2 ^ 64 = hhdm.ptr b + 32 :=
    mod_eq_of_lt (by unfold headerSize; omega)
  simp only [kheapTake, h.flags_eq, phys_ptr, hflag, hret]

/-- What the branches of `kmalloc` do with the block they picked. -/
def kheapCarve (hhdm : Hhdm) (s : KHeap) (h size : ℕ) : ℕ × KHeap :=
  if (s.header hhdm h).size ≤ size + headerSize then kheapTake hhdm s h
  else kheapTake hhdm (kheapCreateBlock hhdm s h size) h

theorem Laid.carve (h : Laid hhdm s (pre ++ b :: post)) (n : ℕ) :
    ∃ s', kheapCarve hhdm s (hhdm.ptr b) n = (hhdm.ptr b + 32, s') ∧
      Laid hhdm s' (pre ++ (carve 32 n b ++ post)) ∧
      Untouched (pre ++ b :: post) b.addr (b.stop 32) s.mem s'.mem ∧
      s'.pmm = s.pmm ∧ s'.kheapSize = s.kheapSize := by
  have hflags : ∀ t : KHeap, Untouched (pre ++ b :: post) b.addr (b.stop 32) t.mem
      (setFlags t.mem b.addr (flagByte false)) := fun t =>
    (setFlags_headerOnly t.mem b.addr _).untouched _ _ (by simp)
  unfold kheapCarve BlockList.carve
  rw [h.size_eq]
  by_cases hle : b.size ≤ n + 32
  · rw [if_pos hle, if_pos (by exact hle), kheapTake_ptr h]
    exact ⟨_, rfl, h.set_flag false, hflags s, rfl, rfl⟩
  · obtain ⟨hlaid, hout⟩ := h.create (n := n) (by omega)
    rw [if_neg hle, if_neg (by exact hle)]
    have htake := kheapTake_ptr (b := { b with size := n }) hlaid
    exact ⟨_, htake, hlaid.set_flag false, hout.trans (hflags _), rfl, rfl⟩

end Operations

end GarnOS
