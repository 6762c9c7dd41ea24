import GarnOS.Mem.PmmOwnership
import GarnOS.Paging.Syscalls

/-! Frame ownership over whole runs: however the process address spaces are created, cloned,
filled, emptied and destroyed, no frame is referenced from two places. -/
namespace GarnOS
open ByteMemory Outcome Finset RadixTree PageTableEntry Relation

/-- The machine and the roots of the live process address spaces. -/
structure VmState where
  machine : Machine
  spaces : List ℕ

/-- One call on a live address space, with user ranges below `VMM_USER_END`. A call that
panics has no successor state. -/
inductive VmStep (kernelPT : ℕ) : VmState → VmState → Prop
  | new {σ : VmState} {r : ℕ} {s' : Machine} (h : vaspaceNew σ.machine kernelPT = .ok (r, s')) :
      VmStep kernelPT σ ⟨s', r :: σ.spaces⟩
  | clone {σ : VmState} {r r' : ℕ} {s' : Machine} (hr : r ∈ σ.spaces)
      (h : vaspaceClone σ.machine kernelPT r = .ok (r', s')) :
      VmStep kernelPT σ ⟨s', r' :: σ.spaces⟩
  | clear {σ : VmState} {r : ℕ} {s' : Machine} (hr : r ∈ σ.spaces)
      (h : vaspaceClear σ.machine r = .ok s') : VmStep kernelPT σ ⟨s', σ.spaces⟩
  | destroy {σ : VmState} {r : ℕ} {s' : Machine} (hr : r ∈ σ.spaces)
      (h : vaspaceDestroy σ.machine r = .ok s') : VmStep kernelPT σ ⟨s', σ.spaces.erase r⟩
  | createArea {σ : VmState} {r virtAddr size : ℕ} {flags : BitVec 32} {s' : Machine}
      (hr : r ∈ σ.spaces) (hrange : virtAddr + size ≤ VMM_USER_END)
      (h : vaspaceCreateArea σ.machine r virtAddr size flags = .ok s') :
      VmStep kernelPT σ ⟨s', σ.spaces⟩
  | mmap {σ : VmState} {r : ℕ} {addr length : BitVec 64} {prot flags : BitVec 32} {z : ℤ}
      {s' : Machine} (hr : r ∈ σ.spaces)
      (h : sysMmap σ.machine r addr length prot flags = .ok (z, s')) :
      VmStep kernelPT σ ⟨s', σ.spaces⟩
  | munmap {σ : VmState} {r : ℕ} {addr length : BitVec 64} {z : ℤ} {s' : Machine}
      (hr : r ∈ σ.spaces) (hrange : addr.toNat + length.toNat ≤ VMM_USER_END)
      (h : sysMunmap σ.machine r addr length = .ok (z, s')) : VmStep kernelPT σ ⟨s', σ.spaces⟩

/-- Every live space is sound and allocated, and no two of them, nor the kernel's table,
share a frame. -/
structure VmInv (kernelPT : ℕ) (σ : VmState) : Prop where
  addressable : σ.machine.pmm.Addressable
  kernel : kernelPT ∈ σ.machine.pmm.setBits
  apart : ∀ r ∈ σ.spaces, kernelPT ∉ heldFrames σ.machine.mem r
  ready : ∀ r ∈ σ.spaces, SpaceReady σ.machine r
  disjoint : σ.spaces.Pairwise fun r r' =>
    Disjoint (heldFrames σ.machine.mem r) (heldFrames σ.machine.mem r')

section Preservation
variable {kernelPT r r' : ℕ} {s s' : Machine} {spaces : List ℕ} {A R : Finset ℕ}

theorem SpaceReady.kept (h : SpaceReady s r) (hlength : s'.pmm.bitmap.length = s.pmm.bitmap.length)
    (hmem : ∀ x ∈ heldFrames s.mem r, FrameEq s.mem s'.mem x)
    (hused : heldFrames s.mem r ⊆ s'.pmm.setBits) :
    SpaceReady s' r ∧ heldFrames s'.mem r = heldFrames s.mem r := by
  have htables : ∀ x ∈ tables slots (heldLinks s.mem) 4 r, FrameEq s.mem s'.mem x :=
    fun x hx => hmem x (tables_subset_footprint _ 4 r hx)
  have hfoot : heldFrames s'.mem r = heldFrames s.mem r :=
    footprint_congr (agree_of_frameEq htables)
  refine ⟨⟨?_, h.sound.congr htables, by rwa [hfoot]⟩, hfoot⟩
  unfold Pmm.Addressable
  rw [hlength]
  exact h.addressable

variable (h : VmInv kernelPT ⟨s, spaces⟩)
include h

theorem VmInv.disjoint_of_ne (hr : r ∈ spaces) (hr' : r' ∈ spaces) (hne : r' ≠ r) :
    Disjoint (heldFrames s.mem r') (heldFrames s.mem r) := by
  have : Std.Symm fun a b => Disjoint (heldFrames s.mem a) (heldFrames s.mem b) :=
    ⟨fun _ _ hab => hab.symm⟩
  exact h.disjoint.forall hr' hr hne

theorem VmInv.other (hr : r ∈ spaces) (ho : OnlySpace s r A s') (hr' : r' ∈ spaces) (hne : r' ≠ r) :
    SpaceReady s' r' ∧ heldFrames s'.mem r' = heldFrames s.mem r' := by
  have hdisj := h.disjoint_of_ne hr hr' hne
  have hout : ∀ x ∈ heldFrames s.mem r', x ∈ s.pmm.setBits \ heldFrames s.mem r := fun x hx =>
    mem_sdiff.mpr ⟨(h.ready r' hr').used hx, disjoint_left.mp hdisj hx⟩
  apply (h.ready r' hr').kept ho.length
  · intro x hx
    apply ho.mem
    rw [mem_union, not_or]
    exact ⟨(mem_sdiff.mp (hout x hx)).2, disjoint_left.mp ho.fresh (hout x hx)⟩
  · exact fun x hx => ho.bits (hout x hx)

theorem VmInv.kernel_kept (hr : r ∈ spaces) (ho : OnlySpace s r A s') : kernelPT ∈ s'.pmm.setBits :=
  ho.bits (mem_sdiff.mpr ⟨h.kernel, h.apart r hr⟩)

theorem VmInv.addressable_kept (ho : OnlySpace s r A s') : s'.pmm.Addressable := by
  unfold Pmm.Addressable
  rw [ho.length]
  exact h.addressable

theorem VmInv.nodup : spaces.Nodup := by
  apply h.disjoint.imp
  rintro a b hab rfl
  exact disjoint_left.mp hab (self_mem_heldFrames _ a) (self_mem_heldFrames _ a)

theorem VmInv.update (hr : r ∈ spaces) (hc : Confined s r A s') : VmInv kernelPT ⟨s', spaces⟩ := by
  have ho := hc.toOnlySpace
  have hkernel := hc.outside (mem_sdiff.mpr ⟨h.kernel, h.apart r hr⟩)
  have hnew : ∀ b ∈ spaces, b ≠ r → Disjoint (heldFrames s'.mem r) (heldFrames s'.mem b) := by
    intro b hb hbr
    rw [(h.other hr ho hb hbr).2, disjoint_right]
    intro x hx
    have hdisj := disjoint_left.mp (h.disjoint_of_ne hr hb hbr) hx
    exact (mem_sdiff.mp (hc.outside (mem_sdiff.mpr ⟨(h.ready b hb).used hx, hdisj⟩))).2
  refine ⟨h.addressable_kept ho, h.kernel_kept hr ho, fun a ha => ?_, fun a ha => ?_, ?_⟩
  · by_cases har : a = r
    · exact har ▸ (mem_sdiff.mp hkernel).2
    · rw [(h.other hr ho ha har).2]
      exact h.apart a ha
  · by_cases har : a = r
    · exact har ▸ hc.ready
    · exact (h.other hr ho ha har).1
  · apply List.Pairwise.imp_of_mem _ h.nodup
    intro a b ha hb hab
    by_cases har : a = r
    · exact har ▸ hnew b hb fun hbr => hab (har.trans hbr.symm)
    · by_cases hbr : b = r
      · exact hbr ▸ (hnew a ha har).symm
      · rw [(h.other hr ho ha har).2, (h.other hr ho hb hbr).2]
        exact h.disjoint_of_ne hb ha hab

theorem VmInv.remove (hr : r ∈ spaces) (ho : OnlySpace s r A s') :
    VmInv kernelPT ⟨s', spaces.erase r⟩ := by
  have hmem : ∀ a ∈ spaces.erase r, a ∈ spaces ∧ a ≠ r := fun a ha =>
    ⟨List.mem_of_mem_erase ha, fun har => h.nodup.not_mem_erase (har ▸ ha)⟩
  refine ⟨h.addressable_kept ho, h.kernel_kept hr ho, fun a ha => ?_, fun a ha => ?_, ?_⟩
  · rw [(h.other hr ho (hmem a ha).1 (hmem a ha).2).2]
    exact h.apart a (hmem a ha).1
  · exact (h.other hr ho (hmem a ha).1 (hmem a ha).2).1
  · apply List.Pairwise.imp_of_mem _ (h.nodup.erase r)
    intro a b ha hb hab
    obtain ⟨ha, har⟩ := hmem a ha
    obtain ⟨hb, hbr⟩ := hmem b hb
    rw [(h.other hr ho ha har).2, (h.other hr ho hb hbr).2]
    exact h.disjoint_of_ne hb ha hab

theorem VmInv.add (hacq : Acquired s A A s') (hsound : SoundTree s'.mem 4 r)
    (hframes : heldFrames s'.mem r ⊆ A) : VmInv kernelPT ⟨s', r :: spaces⟩ := by
  have hold : ∀ a ∈ spaces, SpaceReady s' a ∧ heldFrames s'.mem a = heldFrames s.mem a := by
    intro a ha
    have hused := (h.ready a ha).used
    apply (h.ready a ha).kept hacq.length
    · exact fun x hx => hacq.mem x (disjoint_left.mp hacq.fresh (hused hx))
    · exact hused.trans hacq.keeps
  have haddr := hacq.addressable h.addressable
  have hnew : SpaceReady s' r := ⟨haddr, hsound, hframes.trans hacq.taken⟩
  refine ⟨haddr, hacq.keeps h.kernel, ?_, ?_, List.Pairwise.cons ?_ ?_⟩
  · intro a ha
    rcases List.mem_cons.mp ha with rfl | ha
    · exact fun hm => disjoint_left.mp hacq.fresh h.kernel (hframes hm)
    · rw [(hold a ha).2]
      exact h.apart a ha
  · intro a ha
    rcases List.mem_cons.mp ha with rfl | ha
    · exact hnew
    · exact (hold a ha).1
  · intro a ha
    rw [(hold a ha).2]
    exact (hacq.fresh.mono (h.ready a ha).used hframes).symm
  · apply List.Pairwise.imp_of_mem _ h.disjoint
    intro a b ha hb hab
    rwa [(hold a ha).2, (hold b hb).2]

end Preservation

section Calls
variable {kernelPT pt : ℕ} {s : Machine} {spaces : List ℕ} {n t t' : ℕ} {m m' : Mem}

/-- In a copy every absent entry is empty, so it holds exactly its present pages. -/
theorem Copies.agree_held (h : Copies n m t m' t') :
    Agree slots (presentLinks m') (heldLinks m') n t' := by
  induction n generalizing t t' with
  | zero => exact agree_zero _ _ t'
  | succ n ih =>
    intro i hi
    cases hp : (readEntry m t i).present with
    | false =>
      have hempty := (h i hi).1 hp
      have hnone : presentLinks m' n t' i = none :=
        presentLinks_of_absent n (by rw [hempty, empty_present])
      rw [hnone, heldLinks_of_vacant n (by rw [hempty, empty_vacant])]
      exact ⟨rfl, fun f hf => nomatch hf⟩
    | true =>
      obtain ⟨hflags, hcopies⟩ := (h i hi).2 hp
      have hp' := (flagBits_present hflags).trans hp
      rw [presentLinks_of_present n hp', heldLinks_of_present n hp']
      refine ⟨rfl, fun f hf => ?_⟩
      rw [Option.some.injEq] at hf
      exact hf ▸ ih hcopies

theorem Copies.clean (h : Copies n m t m' t') (hm : Clean m n t) : Clean m' n t' := by
  induction n generalizing t t' with
  | zero => trivial
  | succ n ih =>
    cases n with
    | zero => trivial
    | succ n =>
      intro i hi
      cases hp : (readEntry m t i).present with
      | false =>
        rw [(h i hi).1 hp]
        exact ⟨fun _ => empty_addr, fun hp' => absurd hp' (by rw [empty_present]; decide)⟩
      | true =>
        obtain ⟨hflags, hcopies⟩ := (h i hi).2 hp
        obtain ⟨hrw, hclean⟩ := (hm i hi).2 hp
        have hp' := (flagBits_present hflags).trans hp
        have hrw' := (congrArg PageTableEntry.readWrite hflags).trans hrw
        exact ⟨fun hn => absurd hp' (by rw [hn]; decide), fun _ => ⟨hrw', ih hcopies hclean⟩⟩

section
variable (h : VmInv kernelPT ⟨s, spaces⟩)
include h

theorem VmInv.new_post : Post (vaspaceNew s kernelPT) (fun r => VmInv kernelPT ⟨r.2, r.1 :: spaces⟩)
      (fun e => e = outOfMemory) := by
  apply (archVaspaceNew_post s h.kernel).mono
  · rintro ⟨r, s'⟩ ⟨-, hacq, hlower, -⟩
    obtain ⟨hsound, hfoot⟩ := soundTree_of_vacant (m := s'.mem) (t := r) 3 fun i hi => by
      rw [hlower i hi, empty_vacant]
    exact h.add hacq hsound (le_of_eq hfoot)
  · exact fun _ he => he.1

theorem VmInv.clone_post (hpt : pt ∈ spaces) :
    Post (vaspaceClone s kernelPT pt) (fun r => VmInv kernelPT ⟨r.2, r.1 :: spaces⟩)
      (fun e => e = outOfMemory) := by
  apply (archVaspaceClone_post (h.ready pt hpt).wellFormed h.kernel).mono
  · rintro ⟨r, s'⟩ ⟨hacq, hcopies, hdistinct, -⟩
    have hagree := hcopies.agree_held
    exact h.add hacq ⟨hdistinct.congr hagree,
      hcopies.clean (h.ready pt hpt).sound.clean⟩ (le_of_eq (footprint_congr hagree))
  · exact fun _ he => he.1

theorem VmInv.destroy_post (hpt : pt ∈ spaces) :
    Post (vaspaceDestroy s pt) (fun s' => VmInv kernelPT ⟨s', spaces.erase pt⟩)
      (fun _ => False) := by
  have hwf := (h.ready pt hpt).wellFormed
  have hsub : ownedFrames s.mem pt ⊆ heldFrames s.mem pt :=
    (present_prunes_held s.mem).footprint_subset 4 pt
  apply (archVaspaceDestroy_post hwf.distinct fun f hf => hwf.lt_pages hf).mono_ok
  intro s' hrel
  apply h.remove (A := ∅) hpt
  refine ⟨hrel.length, disjoint_empty_right _, ?_, fun x hx => hrel.mem x fun hm => hx ?_⟩
  · rw [hrel.setBits]
    exact sdiff_subset_sdiff Subset.rfl hsub
  · exact mem_union_left _ (hsub hm)

end

theorem VmInv.step {σ τ : VmState} (h : VmInv kernelPT σ) (hstep : VmStep kernelPT σ τ) :
    VmInv kernelPT τ := by
  cases hstep with
  | new hcall => exact h.new_post.of_ok hcall
  | clone hr hcall => exact (h.clone_post hr).of_ok hcall
  | clear hr hcall =>
    obtain ⟨⟨R, hR⟩, -⟩ := (vaspaceClear_post (h.ready _ hr)).of_ok hcall
    exact h.update hr (hR.confined (h.ready _ hr))
  | destroy hr hcall => exact (h.destroy_post hr).of_ok hcall
  | createArea hr hrange hcall =>
    obtain ⟨A, hA⟩ := (vaspaceCreateArea_post (h.ready _ hr) hrange _).of_ok hcall
    exact h.update hr (hA.confined (h.ready _ hr))
  | mmap hr hcall =>
    obtain ⟨A, hA⟩ := (sysMmap_post (h.ready _ hr) _ _ _ _).of_ok hcall
    exact h.update hr (hA.confined (h.ready _ hr))
  | munmap hr hrange hcall =>
    obtain ⟨R, hR⟩ := (sysMunmap_post (h.ready _ hr) hrange).of_ok hcall
    exact h.update hr (hR.confined (h.ready _ hr))

end Calls

/-- No frame is referenced twice, and every referenced frame is allocated. A place is a live
root and a path of indices below it: the empty path is the root itself, a longer one the
present entry at its end, in a PML4, PDP, PD or PT. -/
structure Exclusive (σ : VmState) : Prop where
  roots : σ.spaces.Nodup
  unique : ∀ r ∈ σ.spaces, ∀ r' ∈ σ.spaces, ∀ p p' f,
    walk slots (presentLinks σ.machine.mem) 4 r p = some f →
      walk slots (presentLinks σ.machine.mem) 4 r' p' = some f → r = r' ∧ p = p'
  used : ∀ r ∈ σ.spaces, ∀ p f, walk slots (presentLinks σ.machine.mem) 4 r p = some f →
    f ∈ σ.machine.pmm.setBits

/-- Every call returns unless the allocator runs out of pages. -/
structure VmServes (kernelPT : ℕ) (σ : VmState) : Prop where
  new : Post (vaspaceNew σ.machine kernelPT) (fun _ => True) (fun e => e = outOfMemory)
  clone : ∀ r ∈ σ.spaces,
    Post (vaspaceClone σ.machine kernelPT r) (fun _ => True) (fun e => e = outOfMemory)
  clear : ∀ r ∈ σ.spaces, ∃ s', vaspaceClear σ.machine r = .ok s'
  destroy : ∀ r ∈ σ.spaces, ∃ s', vaspaceDestroy σ.machine r = .ok s'
  createArea : ∀ r ∈ σ.spaces, ∀ virtAddr size flags, virtAddr + size ≤ VMM_USER_END →
    Post (vaspaceCreateArea σ.machine r virtAddr size flags) (fun _ => True)
      (fun e => e = outOfMemory)
  mmap : ∀ r ∈ σ.spaces, ∀ addr length prot flags,
    Post (sysMmap σ.machine r addr length prot flags) (fun _ => True) (fun e => e = outOfMemory)
  munmap : ∀ r ∈ σ.spaces, ∀ addr length : BitVec 64,
    addr.toNat + length.toNat ≤ VMM_USER_END → ∃ z s',
      sysMunmap σ.machine r addr length = .ok (z, s')

section Run
variable {kernelPT : ℕ} {σ : VmState}

theorem walk_mem_heldFrames {m : Mem} {r f : ℕ} {p : List ℕ}
    (hw : walk slots (presentLinks m) 4 r p = some f) : f ∈ heldFrames m r :=
  (present_prunes_held _).footprint_subset 4 r (walk_mem_footprint hw)

theorem VmInv.exclusive (h : VmInv kernelPT σ) : Exclusive σ where
  roots := h.nodup
  unique r hr r' hr' p p' f hp hp' := by
    have hrr : r = r' := by
      by_contra hne
      exact disjoint_left.mp (h.disjoint_of_ne hr' hr hne) (walk_mem_heldFrames hp)
        (walk_mem_heldFrames hp')
    subst hrr
    exact ⟨rfl, (h.ready r hr).wellFormed.distinct.walk_injective hp hp'⟩
  used r hr p f hp := (h.ready r hr).used (walk_mem_heldFrames hp)

theorem VmInv.serves (h : VmInv kernelPT σ) : VmServes kernelPT σ where
  new := h.new_post.mono_ok fun _ _ => trivial
  clone r hr := (h.clone_post hr).mono_ok fun _ _ => trivial
  clear r hr := by
    obtain ⟨s', hcall, -⟩ := (vaspaceClear_post (h.ready r hr)).returns
    exact ⟨s', hcall⟩
  destroy r hr := by
    obtain ⟨s', hcall, -⟩ := (h.destroy_post hr).returns
    exact ⟨s', hcall⟩
  createArea r hr virtAddr size flags hrange :=
    (vaspaceCreateArea_post (h.ready r hr) hrange flags).mono_ok fun _ _ => trivial
  mmap r hr addr length prot flags :=
    (sysMmap_post (h.ready r hr) addr length prot flags).mono (fun _ _ => trivial) fun _ he => he.1
  munmap r hr addr length hrange := by
    obtain ⟨⟨z, s'⟩, hcall, -⟩ := (sysMunmap_post (h.ready r hr) hrange).returns
    exact ⟨z, s', hcall⟩

end Run

/-- Address-space frame ownership in every reachable state. -/
theorem vaspace_frame_ownership (kernelPT : ℕ) (s : Machine) (haddr : s.pmm.Addressable)
    (hkernel : kernelPT ∈ s.pmm.setBits) (σ : VmState)
    (hrun : ReflTransGen (VmStep kernelPT) ⟨s, []⟩ σ) :
    Exclusive σ ∧ VmServes kernelPT σ := by
  have hstart : VmInv kernelPT ⟨s, []⟩ :=
    ⟨haddr, hkernel, by simp, by simp, List.Pairwise.nil⟩
  have hinv := Runs.invariant (fun _ _ ha hstep => ha.step hstep) hstart hrun
  exact ⟨hinv.exclusive, hinv.serves⟩

theorem sixteenFrames_size : [(0x80 : BitVec 8), 0].length < 2 ^ 49 := by decide

/-- Sixteen pages of which only the kernel's table, frame 0, is taken. -/
def sixteenFrames : Machine := ⟨fun _ => 0, ⟨[0x80, 0], 1, 15, sixteenFrames_size⟩⟩

theorem sixteenFrames_inv : VmInv 0 ⟨sixteenFrames, []⟩ := by
  refine ⟨?_, by decide, by simp, by simp, List.Pairwise.nil⟩
  unfold Pmm.Addressable
  decide

/-- A space is made, given an area, cloned and destroyed; the pages last for that. -/
theorem sixteenFrames_run : ∃ r s₁ s₂ r' s₃ s₄, vaspaceNew sixteenFrames 0 = .ok (r, s₁) ∧
    vaspaceCreateArea s₁ r 0x1000 0x1000 0 = .ok s₂ ∧ vaspaceClone s₂ 0 r = .ok (r', s₃) ∧
      vaspaceDestroy s₃ r = .ok s₄ := by
  obtain ⟨⟨r, s₁⟩, hnew, -, hacq, hlower, -⟩ :=
    ((archVaspaceNew_post sixteenFrames sixteenFrames_inv.kernel).mono (fun _ h => h)
      fun _ he => absurd he.2 (by decide)).returns
  have hinv₁ := sixteenFrames_inv.new_post.of_ok hnew
  have hready : SpaceReady s₁ r := hinv₁.ready r (List.mem_singleton_self r)
  have hheld := (soundTree_of_vacant (m := s₁.mem) (t := r) 3 fun i hi => by
    rw [hlower i hi, empty_vacant]).2
  have hclear : s₁.pmm.clearBits.card + 1 = 15 := hacq.card_clearBits
  obtain ⟨s₂, harea, ⟨A, hg, hA⟩, -⟩ := ((mapFreshPages_post (v := 0x1000) (n := 1) hready (by decide)
    0).mono (fun _ h => h) fun _ he => by omega).returns
  have hinv₂ := hinv₁.update (List.mem_singleton_self r) (hg.confined hready)
  have hclear₂ := hg.acq.card_clearBits
  obtain ⟨⟨r', s₃⟩, hclone, -⟩ := ((archVaspaceClone_post (hg.ready hready).wellFormed
    hinv₂.kernel).mono (fun _ h => h) fun _ he => by
      have howned : ownedFrames s₂.mem r ⊆ heldFrames s₁.mem r ∪ A :=
        ((present_prunes_held s₂.mem).footprint_subset 4 r).trans hg.frames
      have hcard := card_le_card howned
      have hunion := card_union_le (heldFrames s₁.mem r) A
      rw [show heldFrames s₁.mem r = {r} from hheld] at hcard hunion
      rw [card_singleton] at hunion
      omega).returns
  have hinv₃ := (hinv₂.clone_post (List.mem_singleton_self r)).of_ok hclone
  obtain ⟨s₄, hdestroy, -⟩ := (hinv₃.destroy_post (List.mem_cons_of_mem r' (.head []))).returns
  exact ⟨r, s₁, s₂, r', s₃, s₄, hnew, harea, hclone, hdestroy⟩

theorem vaspace_frame_ownership_sixteenFrames :
    ∃ r s₁ s₂ r' s₃ s₄, vaspaceNew sixteenFrames 0 = .ok (r, s₁) ∧
      vaspaceCreateArea s₁ r 0x1000 0x1000 0 = .ok s₂ ∧ vaspaceClone s₂ 0 r = .ok (r', s₃) ∧
      vaspaceDestroy s₃ r = .ok s₄ ∧ Exclusive ⟨s₃, [r', r]⟩ ∧ Exclusive ⟨s₄, [r', r].erase r⟩ := by
  obtain ⟨r, s₁, s₂, r', s₃, s₄, hnew, harea, hclone, hdestroy⟩ := sixteenFrames_run
  have hrun : ReflTransGen (VmStep 0) ⟨sixteenFrames, []⟩ ⟨s₃, [r', r]⟩ :=
    ((ReflTransGen.single (.new hnew)).tail
      (.createArea (List.mem_singleton_self r) (by decide) harea)).tail
      (.clone (List.mem_singleton_self r) hclone)
  have howned := vaspace_frame_ownership 0 sixteenFrames sixteenFrames_inv.addressable
    sixteenFrames_inv.kernel
  exact ⟨r, s₁, s₂, r', s₃, s₄, hnew, harea, hclone, hdestroy, (howned _ hrun).1, (howned _
    (hrun.tail (.destroy (List.mem_cons_of_mem r' (.head [])) hdestroy))).1⟩

end GarnOS
