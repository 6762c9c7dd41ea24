import GarnOS.Paging.Teardown

/-! Cloning an address space: the copy is exact, it is made of frames that were free, and
the original is only read. -/
namespace GarnOS
open ByteMemory Outcome Finset RadixTree PageTableEntry Nat

/-- Physical addresses fit the 51-bit address field of an entry, also after the shifts
`addr << 12`, which GCC evaluates in the 51-bit type of the field. -/
def Pmm.Addressable (p : Pmm) : Prop := p.bitmap.length ≤ 2 ^ 36

variable {p : Pmm} {f : ℕ}

theorem Pmm.Addressable.toNat_ofNat (h : p.Addressable) (hf : f < p.pages) :
    (BitVec.ofNat 51 f).toNat = f := by
  unfold Addressable at h
  unfold Pmm.pages at hf
  rw [BitVec.toNat_ofNat, mod_eq_of_lt (by omega)]

theorem Pmm.Addressable.frame_mod (h : p.Addressable) (hf : f < p.pages) :
    f * 4096 % 2 ^ 51 = f * 4096 := by
  unfold Addressable at h
  unfold Pmm.pages at hf
  exact mod_eq_of_lt (by omega)

theorem Acquired.addressable {s s' : Machine} {A W : Finset ℕ} (h : Acquired s A W s')
    (ha : s.pmm.Addressable) : s'.pmm.Addressable := by
  unfold Pmm.Addressable
  rw [h.length]
  exact ha

theorem Released.addressable {s s' : Machine} {R W : Finset ℕ} (h : Released s R W s')
    (ha : s.pmm.Addressable) : s'.pmm.Addressable := by
  unfold Pmm.Addressable
  rw [h.length]
  exact ha

section CopyEntry
variable {m : Mem} {src dst i j f : ℕ}

section
variable (h : src ≠ dst)
include h

theorem copyEntry_eq_copy :
    copyEntry m src dst i = copy m (entryAddr dst i) (entryAddr src i) 8 := by
  apply memcpy_eq_copy
  unfold entryAddr
  omega

theorem copyEntry_frameEq (hi : i < 512) (hf : f ≠ dst) : FrameEq (copyEntry m src dst i) m f := by
  rw [copyEntry_eq_copy h]
  apply copy_eqOn
  unfold entryAddr
  omega

theorem readEntry_copyEntry : readEntry (copyEntry m src dst i) dst i = readEntry m src i := by
  have hword := word_copy m (d := entryAddr dst i) (s := entryAddr src i) (n := 8) (k := 0)
      (by decide)
  rw [add_zero, add_zero] at hword
  unfold readEntry
  rw [copyEntry_eq_copy h, hword]

theorem readEntry_copyEntry_ne (hj : j ≠ i) :
    readEntry (copyEntry m src dst i) dst j = readEntry m dst j := by
  unfold readEntry
  rw [copyEntry_eq_copy h]
  congr 1
  apply word_congr
  apply copy_eqOn
  unfold entryAddr
  omega

end

/-- Copy entry `i` and let the copy point to frame `f`. -/
def redirectEntry (m : Mem) (src dst i f : ℕ) : Mem :=
  writeEntry (copyEntry m src dst i) dst i
    { readEntry (copyEntry m src dst i) dst i with addr := BitVec.ofNat 51 f }

theorem redirectEntry_frameEq {g : ℕ} (h : src ≠ dst) (hi : i < 512) (hg : g ≠ dst) :
    FrameEq (redirectEntry m src dst i f) m g :=
  (writeEntry_frameEq hi hg).trans (copyEntry_frameEq h hi hg)

theorem readEntry_redirectEntry (h : src ≠ dst) :
    readEntry (redirectEntry m src dst i f) dst i =
      { readEntry m src i with addr := BitVec.ofNat 51 f } := by
  rw [redirectEntry, readEntry_writeEntry, readEntry_copyEntry h]

theorem readEntry_redirectEntry_ne (h : src ≠ dst) (hi : i < 512) (hj : j < 512) (hji : j ≠ i) :
    readEntry (redirectEntry m src dst i f) dst j = readEntry m dst j := by
  rw [redirectEntry, readEntry_writeEntry_ne hi hj (Or.inr hji), readEntry_copyEntry_ne h hji]

end CopyEntry

/-- The tree at `t'` in `m'` is the tree at `t` in `m` with other frames: the same entries
present, the same flag bits at every level, the same bytes in the pages. -/
def Copies : ℕ → Mem → ℕ → Mem → ℕ → Prop
  | 0, m, t, m', t' => ∀ k < 4096, m' (t' * 4096 + k) = m (t * 4096 + k)
  | n + 1, m, t, m', t' => ∀ i < slots (n + 1),
    ((readEntry m t i).present = false → readEntry m' t' i = PageTableEntry.empty) ∧
    ((readEntry m t i).present = true →
      (readEntry m' t' i).flagBits = (readEntry m t i).flagBits ∧
      Copies n m (readEntry m t i).frame m' (readEntry m' t' i).frame)

theorem flagBits_present {e e' : PageTableEntry} (h : e'.flagBits = e.flagBits) :
    e'.present = e.present := by
  change e'.flagBits.present = e.flagBits.present
  rw [h]

theorem child_subset_footprint {m : Mem} {n src i : ℕ} (hi : i < slots (n + 1))
    (hp : (readEntry m src i).present = true) :
    footprint slots (presentLinks m) n (readEntry m src i).frame ⊆
      footprint slots (presentLinks m) (n + 1) src := by
  rw [← branch_of_some (presentLinks_of_present n hp)]
  exact branch_subset_footprint hi

theorem Copies.congr {n : ℕ} {m₁ m₂ m₁' m₂' : Mem} {t t' : ℕ} (h : Copies n m₁ t m₁' t')
    (hsrc : ∀ f ∈ footprint slots (presentLinks m₁) n t, FrameEq m₁ m₂ f)
    (hdst : ∀ f ∈ footprint slots (presentLinks m₁') n t', FrameEq m₁' m₂' f) :
    Copies n m₂ t m₂' t' := by
  induction n generalizing t t' with
  | zero =>
    intro k hk
    have h1 := hsrc t (self_mem_footprint _ 0 t) (t * 4096 + k) (by omega) (by omega)
    have h2 := hdst t' (self_mem_footprint _ 0 t') (t' * 4096 + k) (by omega) (by omega)
    rw [← h1, ← h2]
    exact h k hk
  | succ n ih =>
    intro i hi
    have hi512 := hi.trans_le (slots_le _)
    rw [← readEntry_congr (hsrc t (self_mem_footprint _ _ t)) hi512,
      ← readEntry_congr (hdst t' (self_mem_footprint _ _ t')) hi512]
    refine ⟨(h i hi).1, fun hp => ?_⟩
    obtain ⟨hflags, hcopies⟩ := (h i hi).2 hp
    exact ⟨hflags, ih hcopies (fun f hf => hsrc f (child_subset_footprint hi hp hf)) fun f hf =>
      hdst f (child_subset_footprint hi ((flagBits_present hflags).trans hp) hf)⟩

/-- What `cloneEntries` may assume about the table it reads and the zeroed table it fills. -/
structure CloneReady (s : Machine) (n src dst : ℕ) : Prop where
  addressable : s.pmm.Addressable
  source : footprint slots (presentLinks s.mem) n src ⊆ s.pmm.setBits
  target : dst ∈ s.pmm.setBits
  apart : dst ∉ footprint slots (presentLinks s.mem) n src
  empty : ∀ i < slots n, readEntry s.mem dst i = PageTableEntry.empty

/-- After `cloneEntries`: the frames `A` now form the tree below `dst`, a copy of the tree
below `src`; of `dst` only the visited slots were written. -/
structure Cloned (s : Machine) (n src dst : ℕ) (A : Finset ℕ) (s' : Machine) : Prop where
  acq : Acquired s A (insert dst A) s'
  rest : ∀ j < 512, slots n ≤ j → readEntry s'.mem dst j = readEntry s.mem dst j
  copies : Copies n s.mem src s'.mem dst
  distinct : Distinct slots (presentLinks s'.mem) n dst
  frames : below slots (presentLinks s'.mem) n dst = A
  card : A.card = linkCount slots (presentLinks s.mem) n src

/-- The loop invariant: the same for the first `i` slots. -/
structure CloneInv (s : Machine) (n src dst i : ℕ) (A : Finset ℕ) (u : Machine) : Prop where
  acq : Acquired s A (insert dst A) u
  rest : ∀ j < 512, i ≤ j → readEntry u.mem dst j = readEntry s.mem dst j
  copied : ∀ j < i,
    ((readEntry s.mem src j).present = false → readEntry u.mem dst j = PageTableEntry.empty) ∧
    ((readEntry s.mem src j).present = true →
      (readEntry u.mem dst j).flagBits = (readEntry s.mem src j).flagBits ∧
      Copies n s.mem (readEntry s.mem src j).frame u.mem (readEntry u.mem dst j).frame)
  distinct : DistinctOn slots (presentLinks u.mem) n dst (range i)
  frames : branches slots (presentLinks u.mem) n dst (range i) = A
  card : A.card = linksUpTo slots (presentLinks s.mem) n src i

/-- One child copied into slot `i` of `dst`: its frame is `f`, the frames below it are `B`. -/
structure ChildCloned (s u : Machine) (n src dst i f : ℕ) (B : Finset ℕ) (v : Machine) : Prop where
  bound : f < u.pmm.pages
  acq : Acquired u (insert f B) (insert dst (insert f B)) v
  entry : readEntry v.mem dst i = { readEntry s.mem src i with addr := BitVec.ofNat 51 f }
  others : ∀ j < 512, j ≠ i → readEntry v.mem dst j = readEntry u.mem dst j
  copies : Copies n s.mem (readEntry s.mem src i).frame v.mem f
  distinct : Distinct slots (presentLinks v.mem) n f
  frames : below slots (presentLinks v.mem) n f = B
  card : B.card = linkCount slots (presentLinks s.mem) n (readEntry s.mem src i).frame

section CloneLoop
variable {s u v : Machine} {n src dst i f : ℕ} {A B : Finset ℕ}

theorem CloneInv.start (s : Machine) (n src dst : ℕ) : CloneInv s n src dst 0 ∅ s where
  acq := Acquired.refl s _
  rest _ _ _ := rfl
  copied _ hj := absurd hj (Nat.not_lt_zero _)
  distinct := ⟨by simp, by simp, by simp⟩
  frames := by rw [range_zero, branches_empty]
  card := by rw [linksUpTo_zero, card_empty]

theorem CloneInv.finish (h : CloneInv s n src dst (slots (n + 1)) A u) :
    Cloned s (n + 1) src dst A u where
  acq := h.acq
  rest := h.rest
  copies := h.copied
  distinct := distinct_succ_iff.mpr h.distinct
  frames := by rw [← branches_range, h.frames]
  card := by rw [← linksUpTo_width, h.card]

theorem CloneInv.source_frameEq (hr : CloneReady s (n + 1) src dst)
    (h : CloneInv s n src dst i A u) {g : ℕ}
    (hg : g ∈ footprint slots (presentLinks s.mem) (n + 1) src) : FrameEq s.mem u.mem g := by
  apply h.acq.mem
  rw [mem_insert, not_or]
  exact ⟨fun he => hr.apart (he ▸ hg), disjoint_left.mp h.acq.fresh (hr.source hg)⟩

section
variable (hr : CloneReady s (n + 1) src dst) (h : CloneInv s n src dst i A u)
include hr h

theorem CloneInv.skip (hi : i < slots (n + 1)) (hp : (readEntry s.mem src i).present = false) :
    CloneInv s n src dst (i + 1) A u := by
  have hi512 := hi.trans_le (slots_le _)
  have hempty : readEntry u.mem dst i = PageTableEntry.empty :=
    (h.rest i hi512 le_rfl).trans (hr.empty i hi)
  have hnone : presentLinks u.mem n dst i = none :=
    presentLinks_of_absent n (by rw [hempty]; rfl)
  have hbranch : branch slots (presentLinks u.mem) n dst i = ∅ := branch_of_none hnone
  refine ⟨h.acq, fun j hj hij => h.rest j hj (by omega), fun j hj => ?_, ?_, ?_, ?_⟩
  · rcases Nat.lt_succ_iff_lt_or_eq.mp hj with hj | rfl
    · exact h.copied j hj
    · exact ⟨fun _ => hempty, fun hp' => absurd hp' (by rw [hp]; decide)⟩
  · rw [range_add_one]
    apply h.distinct.insert
    · simp [hbranch]
    · intro f hf
      rw [hnone] at hf
      cases hf
    · simp [hbranch]
  · rw [branches_range_succ, hbranch, union_empty, h.frames]
  · rw [linksUpTo_succ_of_none (presentLinks_of_absent n hp), h.card]

variable (hc : ChildCloned s u n src dst i f B v) (hi : i < slots (n + 1))
include hc hi

theorem CloneInv.agreeSlot {j : ℕ} (hj : j < i) : readEntry v.mem dst j = readEntry u.mem dst j ∧
      (∀ g ∈ A, FrameEq u.mem v.mem g) ∧
      AgreeSlot slots (presentLinks u.mem) (presentLinks v.mem) n dst j := by
  have hentry := hc.others j (by have := slots_le (n + 1); omega) (by omega)
  have hA : ∀ g ∈ A, FrameEq u.mem v.mem g := by
    intro g hg
    apply hc.acq.mem
    have hused := h.acq.taken hg
    rw [mem_insert, not_or]
    refine ⟨?_, disjoint_left.mp hc.acq.fresh hused⟩
    rintro rfl
    exact disjoint_left.mp h.acq.fresh hr.target hg
  refine ⟨hentry, hA, agreeSlot_of_frameEq hentry fun x hx => hA x ?_⟩
  rw [← h.frames, branches, mem_biUnion]
  exact ⟨j, mem_range.mpr hj, hx⟩

theorem CloneInv.extend (hp : (readEntry s.mem src i).present = true) :
    CloneInv s n src dst (i + 1) (A ∪ insert f B) v := by
  have hframe : (readEntry v.mem dst i).frame = f := by
    rw [hc.entry]
    exact (h.acq.addressable hr.addressable).toNat_ofNat hc.bound
  have hpv : (readEntry v.mem dst i).present = true := by
    rw [hc.entry]
    exact hp
  have hlink : presentLinks v.mem n dst i = some f := by
    rw [presentLinks_of_present n hpv, hframe]
  have hbranch : branch slots (presentLinks v.mem) n dst i = insert f B := by
    rw [branch_of_some hlink, footprint_eq, hc.frames]
  have hslots : ∀ j ∈ range i, AgreeSlot slots (presentLinks u.mem) (presentLinks v.mem) n dst j :=
    fun j hj => (h.agreeSlot hr hc hi (mem_range.mp hj)).2.2
  have hold : branches slots (presentLinks v.mem) n dst (range i) = A := by
    rw [branches_congr hslots, h.frames]
  have hfresh := hc.acq.fresh
  have hdst : dst ∉ insert f B := disjoint_left.mp hfresh (h.acq.keeps hr.target)
  have hapart : Disjoint A (insert f B) := hfresh.mono_left h.acq.taken
  refine ⟨?_, ?_, ?_, ?_, ?_, ?_⟩
  · apply (h.acq.trans hc.acq).mono
    intro x
    simp only [mem_union, mem_insert]
    tauto
  · intro j hj hij
    rw [hc.others j hj (by omega)]
    exact h.rest j hj (by omega)
  · intro j hj
    rcases Nat.lt_succ_iff_lt_or_eq.mp hj with hj | rfl
    · obtain ⟨hentry, hA, -⟩ := h.agreeSlot hr hc hi hj
      rw [hentry]
      refine ⟨(h.copied j hj).1, fun hpj => ?_⟩
      obtain ⟨hflags, hcopies⟩ := (h.copied j hj).2 hpj
      refine ⟨hflags, hcopies.congr (fun g _ => FrameEq.refl _ g) fun g hg => hA g ?_⟩
      rw [← h.frames, branches, mem_biUnion]
      refine ⟨j, mem_range.mpr hj, ?_⟩
      rwa [branch_of_some (presentLinks_of_present n ((flagBits_present hflags).trans hpj))]
    · refine ⟨fun hp' => absurd hp (by rw [hp']; decide), fun _ => ⟨?_, ?_⟩⟩
      · rw [hc.entry]
        rfl
      · rw [hframe]
        exact hc.copies
  · rw [range_add_one]
    apply (h.distinct.congr hslots).insert
    · rwa [hbranch]
    · intro g hg
      rw [hlink, Option.some.injEq] at hg
      exact hg ▸ hc.distinct
    · rwa [hold, hbranch]
  · rw [branches_range_succ, hold, hbranch]
  · have hfB : f ∉ B := hc.frames ▸ hc.distinct.not_mem_below
    rw [card_union_of_disjoint hapart, card_insert_of_notMem hfB, h.card, hc.card,
      linksUpTo_succ_of_some (presentLinks_of_present n hp)]

end

theorem clonePage_post (hr : CloneReady s 1 src dst) (h : CloneInv s 0 src dst i A u)
    (hi : i < slots 1) :
    Post (clonePage src dst i u) (fun v => ∃ A', CloneInv s 0 src dst (i + 1) A' v)
      (fun e => e = outOfMemory ∧
        s.pmm.clearBits.card < linkCount slots (presentLinks s.mem) 1 src) := by
  have hself : src ∈ footprint slots (presentLinks s.mem) 1 src :=
      self_mem_footprint (presentLinks s.mem) 1 src
  have hsrc : src ≠ dst := fun he => hr.apart (he ▸ hself)
  have hentry : readEntry u.mem src i = readEntry s.mem src i :=
    (readEntry_congr (h.source_frameEq hr hself) hi).symm
  unfold clonePage
  simp only [hentry]
  cases hp : (readEntry s.mem src i).present with
  | false => exact post_ok.mpr ⟨A, h.skip hr hi hp⟩
  | true =>
    have hchild := child_subset_footprint (n := 0) hi hp
    have hpage := hchild (self_mem_footprint _ 0 _)
    have hcount : linksUpTo slots (presentLinks s.mem) 0 src (i + 1) =
        linksUpTo slots (presentLinks s.mem) 0 src i + (0 + 1) := by
      rw [linksUpTo_succ_of_some (presentLinks_of_present 0 hp), linkCount_zero]
    have hle : linksUpTo slots (presentLinks s.mem) 0 src (i + 1) ≤
        linkCount slots (presentLinks s.mem) 1 src := linksUpTo_le hi
    apply ((pmmAllocate_one_post u).mono (fun _ ha => ha) ?_).bind
    · rintro ⟨base, w⟩ ⟨f, rfl, hbound, hfree, hacq, hmem⟩
      have hne : ∀ g ∈ s.pmm.setBits, g ≠ f := fun g hg he => hfree (h.acq.keeps (he ▸ hg))
      rw [hmem, Nat.mul_div_cancel f (by decide), PAGE_SIZE,
        memcpy_eq_copy u.mem (by have := hne _ (hr.source hpage); omega)]
      let page := copy u.mem (f * 4096) ((readEntry s.mem src i).frame * 4096) 4096
      have hkeep : ∀ g, g ≠ f → FrameEq page u.mem g := fun g hg => copy_frameEq hg
      have hdst := hne dst hr.target
      change Post (.ok (Machine.mk (redirectEntry page src dst i f) w.pmm)) _ _
      refine post_ok.mpr ⟨_, h.extend hr (f := f) (B := ∅) ⟨hbound, ?_, ?_, ?_, ?_,
        distinct_zero, below_zero, linkCount_zero.symm⟩ hi hp⟩
      · apply (hacq.mono (empty_subset _)).write
        intro g hg
        rw [mem_insert, insert_empty, mem_singleton, not_or] at hg
        rw [hmem]
        exact ((redirectEntry_frameEq hsrc hi hg.1).trans (hkeep g hg.2)).symm
      · rw [← hentry, ← readEntry_congr (hkeep src (hne src (hr.source hself))) hi]
        exact readEntry_redirectEntry hsrc
      · intro j hj hji
        rw [← readEntry_congr (hkeep dst hdst) hj]
        exact readEntry_redirectEntry_ne hsrc hi hj hji
      · intro k hk
        have hwritten : FrameEq (redirectEntry page src dst i f) page f :=
          redirectEntry_frameEq hsrc hi hdst.symm
        have hbyte : page (f * 4096 + k) = u.mem ((readEntry s.mem src i).frame * 4096 + k) :=
          copy_frame_byte hk
        dsimp only
        rw [hwritten (f * 4096 + k) (by omega) (by omega), hbyte]
        exact (h.source_frameEq hr hpage _ (by omega) (by omega)).symm
    · rintro e ⟨rfl, hnone⟩
      refine ⟨rfl, ?_⟩
      have hcard := h.acq.card_clearBits
      rw [h.card] at hcard
      omega

/-- The memory at the recursive call: the entry copied, the fresh table zeroed, the entry
redirected to it. -/
def freshTable (m : Mem) (src dst i f : ℕ) : Mem :=
  let m' := fill (copyEntry m src dst i) (f * 4096) 4096 0
  writeEntry m' dst i { readEntry m' dst i with addr := BitVec.ofNat 51 f }

section FreshTable
variable {m : Mem} {j : ℕ}

section
variable (h : src ≠ dst) (hi : i < 512)
include h hi

theorem freshTable_frameEq {g : ℕ} (hd : g ≠ dst) (hf : g ≠ f) :
    FrameEq (freshTable m src dst i f) m g :=
  (writeEntry_frameEq hi hd).trans ((fill_frameEq 0 hf).trans (copyEntry_frameEq h hi hd))

theorem readEntry_freshTable (hf : dst ≠ f) : readEntry (freshTable m src dst i f) dst i =
      { readEntry m src i with addr := BitVec.ofNat 51 f } := by
  rw [freshTable, readEntry_writeEntry, readEntry_congr (fill_frameEq 0 hf) hi,
    readEntry_copyEntry h]

theorem readEntry_freshTable_ne (hf : dst ≠ f) (hj : j < 512) (hji : j ≠ i) :
    readEntry (freshTable m src dst i f) dst j = readEntry m dst j := by
  rw [freshTable, readEntry_writeEntry_ne hi hj (Or.inr hji),
    readEntry_congr (fill_frameEq 0 hf) hj, readEntry_copyEntry_ne h hji]

end

theorem readEntry_freshTable_empty (hi : i < 512) (hf : dst ≠ f) (hj : j < 512) :
    readEntry (freshTable m src dst i f) f j = PageTableEntry.empty := by
  rw [freshTable, readEntry_writeEntry_ne hi hj (Or.inl hf.symm), readEntry_fill_zero _ hj]

end FreshTable

section CloneTable
variable {w : Machine}

theorem CloneInv.ready (hr : CloneReady s (n + 1) src dst) (h : CloneInv s n src dst i A u)
    (hi : i < slots (n + 1)) (hp : (readEntry s.mem src i).present = true)
    (hfree : f ∉ u.pmm.setBits) (hw : Acquired u {f} {dst, f} w)
    (hempty : ∀ j < 512, readEntry w.mem f j = PageTableEntry.empty) :
    CloneReady w n (readEntry s.mem src i).frame f ∧
      ∀ g ∈ footprint slots (presentLinks s.mem) n (readEntry s.mem src i).frame,
        FrameEq s.mem w.mem g := by
  have hsub := child_subset_footprint (n := n) hi hp
  have hkeep : ∀ g ∈ footprint slots (presentLinks s.mem) n (readEntry s.mem src i).frame,
      FrameEq s.mem w.mem g := by
    intro g hg
    apply (h.source_frameEq hr (hsub hg)).trans
    apply hw.mem
    simp only [mem_insert, mem_singleton, not_or]
    exact ⟨fun he => hr.apart (he ▸ hsub hg),
      fun he => hfree (he ▸ h.acq.keeps (hr.source (hsub hg)))⟩
  have hfoot : footprint slots (presentLinks w.mem) n (readEntry s.mem src i).frame =
      footprint slots (presentLinks s.mem) n (readEntry s.mem src i).frame :=
    footprint_congr (agree_of_frameEq fun g hg => hkeep g (tables_subset_footprint _ n _ hg))
  refine ⟨⟨hw.addressable (h.acq.addressable hr.addressable), ?_, hw.taken (mem_singleton_self f),
    ?_, fun j hj => hempty j (hj.trans_le (slots_le n))⟩, hkeep⟩
  · rw [hfoot]
    exact hsub.trans (hr.source.trans (h.acq.keeps.trans hw.keeps))
  · rw [hfoot]
    exact fun hg => hfree (h.acq.keeps (hr.source (hsub hg)))

theorem ChildCloned.of_table (hr : CloneReady s (n + 1) src dst) (h : CloneInv s n src dst i A u)
    (hi : i < slots (n + 1)) (hbound : f < u.pmm.pages) (hfree : f ∉ u.pmm.setBits)
    (hw : Acquired u {f} {dst, f} w)
    (hentry : readEntry w.mem dst i = { readEntry s.mem src i with addr := BitVec.ofNat 51 f })
    (hothers : ∀ j < 512, j ≠ i → readEntry w.mem dst j = readEntry u.mem dst j)
    (hkeep : ∀ g ∈ footprint slots (presentLinks s.mem) n (readEntry s.mem src i).frame,
      FrameEq s.mem w.mem g)
    (hv : Cloned w n (readEntry s.mem src i).frame f B v) : ChildCloned s u n src dst i f B v := by
  have hagree : Agree slots (presentLinks s.mem)
      (presentLinks w.mem) n (readEntry s.mem src i).frame :=
    agree_of_frameEq fun g hg => hkeep g (tables_subset_footprint _ n _ hg)
  have hdst : dst ∈ u.pmm.setBits := h.acq.keeps hr.target
  have hdstv : FrameEq w.mem v.mem dst := by
    apply hv.acq.mem
    rw [mem_insert, not_or]
    exact ⟨fun he => hfree (he ▸ hdst), disjoint_left.mp hv.acq.fresh (hw.keeps hdst)⟩
  refine ⟨hbound, ?_, ?_, ?_, ?_, hv.distinct, hv.frames, ?_⟩
  · have hacq := hw.trans hv.acq
    rw [← insert_eq] at hacq
    apply hacq.mono
    intro x
    simp only [mem_union, mem_insert, mem_singleton]
    tauto
  · rw [← readEntry_congr hdstv (hi.trans_le (slots_le _)), hentry]
  · intro j hj hji
    rw [← readEntry_congr hdstv hj, hothers j hj hji]
  · apply hv.copies.congr
    · intro g hg
      rw [footprint_congr hagree] at hg
      exact (hkeep g hg).symm
    · exact fun g _ => FrameEq.refl _ g
  · rw [hv.card, linkCount_congr hagree]

end CloneTable
end CloneLoop

theorem cloneLoop_post {s : Machine} {n src dst : ℕ} {body : ℕ → Machine → Except Fault Machine}
    {E : Fault → Prop} (hbody : ∀ i u A, i < slots (n + 1) → CloneInv s n src dst i A u →
      Post (body i u) (fun v => ∃ A', CloneInv s n src dst (i + 1) A' v) E) :
    Post (forRange body 0 (slots (n + 1)) s) (fun s' => ∃ A, Cloned s (n + 1) src dst A s') E := by
  apply (forRange_post (fun i u => ∃ A, CloneInv s n src dst i A u) ⟨∅, .start s n src dst⟩ ?_).mono_ok
  · rintro u ⟨A, hA⟩
    rw [zero_add] at hA
    exact ⟨A, hA.finish⟩
  · rintro i u _ hi ⟨A, hA⟩
    exact hbody i u A (zero_add (slots _) ▸ hi) hA

theorem cloneEntries_post (n : ℕ) (s : Machine) (src dst : ℕ) (hr : CloneReady s (n + 1) src dst) :
    Post (cloneEntries (n + 1) src dst s) (fun s' => ∃ A, Cloned s (n + 1) src dst A s')
      (fun e => e = outOfMemory ∧
        s.pmm.clearBits.card < linkCount slots (presentLinks s.mem) (n + 1) src) := by
  induction n generalizing s src dst with
  | zero => exact cloneLoop_post fun i u A hi hA => clonePage_post hr hA hi
  | succ n ih =>
    refine cloneLoop_post fun i u A hi hA => ?_
    have hi512 := hi.trans_le (slots_le _)
    have hself : src ∈ footprint slots (presentLinks s.mem) (n + 2) src :=
      self_mem_footprint _ _ src
    have hsrc : src ≠ dst := fun he => hr.apart (he ▸ hself)
    have hentry : readEntry u.mem src i = readEntry s.mem src i :=
      (readEntry_congr (hA.source_frameEq hr hself) hi512).symm
    simp only [hentry]
    cases hp : (readEntry s.mem src i).present with
    | false => exact post_ok.mpr ⟨A, hA.skip hr hi hp⟩
    | true =>
      have hcount : linksUpTo slots (presentLinks s.mem) (n + 1) src (i + 1) =
          linksUpTo slots (presentLinks s.mem) (n + 1) src i + _ :=
        linksUpTo_succ_of_some (presentLinks_of_present (n + 1) hp)
      have hle : linksUpTo slots (presentLinks s.mem) (n + 1) src (i + 1) ≤ _ := linksUpTo_le hi
      have hcard := hA.acq.card_clearBits
      rw [hA.card] at hcard
      apply ((pmmAllocate_one_post _).mono (fun _ ha => ha) ?_).bind
      · rintro ⟨base, w⟩ ⟨f, rfl, hbound, hfree, hacq, hmem⟩
        rw [hmem, Nat.mul_div_cancel f (by decide), PAGE_SIZE, memset_eq_fill]
        let w' := Machine.mk (freshTable u.mem src dst i f) w.pmm
        have hdst : dst ≠ f := fun he => hfree (he ▸ hA.acq.keeps hr.target)
        have hw : Acquired u {f} {dst, f} w' := by
          refine ⟨hacq.length, hacq.setBits, hacq.fresh, hacq.used, hacq.free, fun g hg => ?_⟩
          simp only [mem_insert, mem_singleton, not_or] at hg
          exact (freshTable_frameEq hsrc hi512 hg.1 hg.2).symm
        obtain ⟨hready, hkeep⟩ := hA.ready hr hi hp hfree hw fun j hj =>
          readEntry_freshTable_empty hi512 hdst hj
        apply (ih w' _ f hready).mono
        · rintro v ⟨B, hv⟩
          refine ⟨_, hA.extend hr (ChildCloned.of_table hr hA hi hbound hfree hw ?_ ?_ hkeep hv)
            hi hp⟩
          · rw [← hentry]
            exact readEntry_freshTable hsrc hi512 hdst
          · exact fun j hj hji => readEntry_freshTable_ne hsrc hi512 hdst hj hji
        · rintro e ⟨rfl, hlt⟩
          refine ⟨rfl, ?_⟩
          have hlinks : linkCount slots (presentLinks w'.mem) (n + 1)
              (readEntry s.mem src i).frame =
              linkCount slots (presentLinks s.mem) (n + 1) (readEntry s.mem src i).frame :=
            linkCount_congr (agree_of_frameEq fun g hg => hkeep g (tables_subset_footprint _ _ _ hg))
          rw [hlinks] at hlt
          have hone := hw.card_clearBits
          rw [card_singleton] at hone
          omega
      · rintro e ⟨rfl, hnone⟩
        refine ⟨rfl, ?_⟩
        dsimp only at hnone
        omega

end GarnOS
