import GarnOS.Exec.Execve
import GarnOS.Paging.Ownership
import GarnOS.Paging.Tables

/-! The upper half under system calls: what user code can reach through `sys_mmap`,
`sys_munmap` and `sys_execve`. -/
namespace GarnOS
open ByteMemory Outcome Finset RadixTree PageTableEntry List

/-- The tables reached from the root through a PML4 index of the upper half. -/
def kernelTables (m : Mem) (pt : ℕ) : Finset ℕ :=
  (Finset.Ico 256 512).biUnion fun j =>
    if (readEntry m pt j).present then tables slots (presentLinks m) 3 (readEntry m pt j).frame else ∅

/-- The same tables together with the frames they map. -/
def kernelFrames (m : Mem) (pt : ℕ) : Finset ℕ :=
  (Finset.Ico 256 512).biUnion fun j =>
    if (readEntry m pt j).present then footprint slots (presentLinks m) 3 (readEntry m pt j).frame
    else ∅

def Foreign (spaces : List ℕ) (s : Machine) (x : ℕ) : Prop :=
  x ∈ s.pmm.setBits ∧ ∀ r ∈ spaces, x ∉ heldFrames s.mem r

/-- From `s` to `s'` no entry reached through the upper half of `pt` was created, changed or
removed, and no frame there was freed. The direct map shows every frame of the machine in the
upper half, so a frame counts as one of the upper half when no process holds it. -/
structure KernelHalfKept (spaces : List ℕ) (s : Machine) (pt : ℕ) (s' : Machine) : Prop where
  root : UpperKept s.mem pt s'.mem
  tables : ∀ t ∈ kernelTables s.mem pt, ∀ i < 512, readEntry s'.mem t i = readEntry s.mem t i
  frames : ∀ f ∈ kernelFrames s.mem pt, Foreign spaces s f → f ∈ s'.pmm.setBits

/-- The calls by which user code changes its address space, with arbitrary arguments. -/
inductive UserCall where
  | mmap (addr length : BitVec 64) (prot flags : BitVec 32)
  | munmap (addr length : BitVec 64)
  | execve (process : Process) (path : ExecPath) (argv envp : ℕ)
      (argvCopies envpCopies : ℕ → BitVec 64)

namespace UserCall

def run (s : Machine) (pt : ℕ) : UserCall → Except Fault Machine
  | mmap addr length prot flags => do
    let (_, s) ← sysMmap s pt addr length prot flags
    return s
  | munmap addr length => do
    let (_, s) ← sysMunmap s pt addr length
    return s
  | execve process path argv envp argvCopies envpCopies => do
    let (_, _, s) ← sysExecve s { process with pt } path argv envp argvCopies envpCopies
    return s

/-- The range given to the call ends below `VMM_USER_END`. -/
def Below (s : Machine) (pt : ℕ) : UserCall → Prop
  | mmap _ _ _ _ => True
  | munmap addr length => addr.toNat + length.toNat ≤ VMM_USER_END
  | execve _ path argv envp argvCopies envpCopies =>
    ExecBelow s pt path argv envp argvCopies envpCopies

end UserCall

def UserStep (spaces : List ℕ) (s s' : Machine) : Prop :=
  ∃ pt ∈ spaces, ∃ call : UserCall, call.run s pt = .ok s'

/-- One call whose ranges end below `VMM_USER_END`. -/
def BelowStep (spaces : List ℕ) (s s' : Machine) : Prop :=
  ∃ pt ∈ spaces, ∃ call : UserCall, call.Below s pt ∧ call.run s pt = .ok s'

/-- The live spaces are sound, and the tables of the upper half belong to none of them. -/
structure KernelReady (kernelPT : ℕ) (spaces : List ℕ) (s : Machine) : Prop where
  vm : VmInv kernelPT ⟨s, spaces⟩
  foreign : ∀ r ∈ spaces, ∀ t ∈ kernelTables s.mem r, Foreign spaces s t

section Steps
variable {kernelPT pt r x : ℕ} {spaces : List ℕ} {s u s' : Machine} {A : Finset ℕ}

theorem UserCall.confined (h : SpaceReady s pt) {call : UserCall} (hb : call.Below s pt)
    (hrun : call.run s pt = .ok s') : ∃ A, Confined s pt A s' := by
  cases call with
  | mmap addr length prot flags =>
    obtain ⟨⟨z, w⟩, hcall, hret⟩ := bind_eq_ok.mp hrun
    cases hret
    obtain ⟨A, hA⟩ := (sysMmap_post h addr length prot flags).of_ok hcall
    exact ⟨A, hA.confined h⟩
  | munmap addr length =>
    obtain ⟨⟨z, w⟩, hcall, hret⟩ := bind_eq_ok.mp hrun
    cases hret
    obtain ⟨R, hR⟩ := (sysMunmap_post h hb).of_ok hcall
    exact ⟨∅, hR.confined h⟩
  | execve process path argv envp argvCopies envpCopies =>
    obtain ⟨⟨res, p, w⟩, hcall, hret⟩ := bind_eq_ok.mp hrun
    cases hret
    exact sysExecve_confined (p := { process with pt }) h hb hcall

section
variable (h : VmInv kernelPT ⟨s, spaces⟩) (hpt : pt ∈ spaces) (hc : Confined s pt A s')
include h hpt hc

theorem VmInv.foreign_kept (hx : Foreign spaces s x) :
    Foreign spaces s' x ∧ FrameEq s.mem s'.mem x := by
  have hout : x ∈ s.pmm.setBits \ heldFrames s.mem pt := mem_sdiff.mpr ⟨hx.1, hx.2 pt hpt⟩
  refine ⟨⟨hc.bits hout, fun r hr => ?_⟩, hc.mem x ?_⟩
  · by_cases hne : r = pt
    · subst hne
      exact (mem_sdiff.mp (hc.outside hout)).2
    · rw [(h.other hpt hc.toOnlySpace hr hne).2]
      exact hx.2 r hr
  · rw [mem_union, not_or]
    exact ⟨hx.2 pt hpt, disjoint_left.mp hc.fresh hout⟩

/-- The upper entries of every root are kept: the caller's by the walk, the others' because
their roots are not written. -/
theorem VmInv.upper_kept (hr : r ∈ spaces) : UpperKept s.mem r s'.mem := by
  by_cases hne : r = pt
  · subst hne
    exact hc.upper
  · intro j _ hj
    have hself : r ∈ heldFrames s.mem r := self_mem_heldFrames _ r
    have hdisj := disjoint_left.mp (h.disjoint_of_ne hpt hr hne) hself
    refine (readEntry_congr (hc.mem r ?_) hj).symm
    rw [mem_union, not_or]
    exact ⟨hdisj, disjoint_left.mp hc.fresh (mem_sdiff.mpr ⟨(h.ready r hr).used hself, hdisj⟩)⟩

end

theorem kernelTables_congr {m m' : Mem} (hroot : UpperKept m pt m')
    (htables : ∀ t ∈ kernelTables m pt, FrameEq m m' t) :
    kernelTables m' pt = kernelTables m pt := by
  apply biUnion_congr rfl
  intro j hj
  obtain ⟨h1, h2⟩ := mem_Ico.mp hj
  rw [hroot j h1 h2]
  split
  · rename_i hp
    apply tables_congr
    apply agree_of_frameEq
    intro t ht
    apply htables
    rw [kernelTables, mem_biUnion]
    exact ⟨j, hj, by rwa [if_pos hp]⟩
  · rfl

structure RunKept (spaces : List ℕ) (s s' : Machine) : Prop where
  upper : ∀ r ∈ spaces, UpperKept s.mem r s'.mem
  foreign : ∀ x, Foreign spaces s x → Foreign spaces s' x ∧ FrameEq s.mem s'.mem x

theorem RunKept.refl (spaces : List ℕ) (s : Machine) : RunKept spaces s s :=
  ⟨fun _ _ _ _ _ => rfl, fun x hx => ⟨hx, FrameEq.refl _ x⟩⟩

theorem RunKept.trans (h : RunKept spaces s u) (h' : RunKept spaces u s') :
    RunKept spaces s s' := by
  constructor
  · exact fun r hr j h1 h2 => (h'.upper r hr j h1 h2).trans (h.upper r hr j h1 h2)
  · intro x hx
    obtain ⟨hxu, heq⟩ := h.foreign x hx
    obtain ⟨hxs, heq'⟩ := h'.foreign x hxu
    exact ⟨hxs, heq.trans heq'⟩

theorem RunKept.kernelTables (hready : KernelReady kernelPT spaces s) (h : RunKept spaces s s')
    (hr : r ∈ spaces) : kernelTables s'.mem r = kernelTables s.mem r :=
  kernelTables_congr (h.upper r hr) fun t ht => (h.foreign t (hready.foreign r hr t ht)).2

theorem KernelReady.step (h : KernelReady kernelPT spaces s) (hstep : BelowStep spaces s s') :
    KernelReady kernelPT spaces s' ∧ RunKept spaces s s' := by
  obtain ⟨pt, hpt, call, hb, hrun⟩ := hstep
  obtain ⟨A, hc⟩ := call.confined (h.vm.ready pt hpt) hb hrun
  have hkept : RunKept spaces s s' :=
    ⟨fun r hr => h.vm.upper_kept hpt hc hr, fun x hx => h.vm.foreign_kept hpt hc hx⟩
  refine ⟨⟨h.vm.update hpt hc, fun r hr t ht => ?_⟩, hkept⟩
  rw [hkept.kernelTables h hr] at ht
  exact (hkept.foreign t (h.foreign r hr t ht)).1

theorem RunKept.kernelHalf (hready : KernelReady kernelPT spaces s) (h : RunKept spaces s s')
    (hr : r ∈ spaces) : KernelHalfKept spaces s r s' where
  root := h.upper r hr
  tables t ht _ hi := (readEntry_congr (h.foreign t (hready.foreign r hr t ht)).2 hi).symm
  frames f _ hf := (h.foreign f hf).1.1

end Steps

/-- Runs whose calls keep their ranges below `VMM_USER_END` leave the upper half alone. -/
theorem kernel_half_kept_of_below (kernelPT : ℕ) (spaces : List ℕ) (s s' : Machine)
    (h : KernelReady kernelPT spaces s) (hrun : Relation.ReflTransGen (BelowStep spaces) s s') :
    ∀ r ∈ spaces, KernelHalfKept spaces s r s' := by
  have hstep : ∀ a b, KernelReady kernelPT spaces a ∧ RunKept spaces s a → BelowStep spaces a b →
      KernelReady kernelPT spaces b ∧ RunKept spaces s b := by
    intro a b ha hab
    obtain ⟨hb, hkept⟩ := ha.1.step hab
    exact ⟨hb, ha.2.trans hkept⟩
  have hend := Runs.invariant hstep ⟨h, RunKept.refl spaces s⟩ hrun
  exact fun r hr => hend.2.kernelHalf h hr

section UpperSegment

/-- The tables of `onePage` below frame 2, now in slot 256 of the root in frame 7. -/
def kernelPage : Machine where
  mem := writeEntry onePage.mem 7 256 (userEntry 2)
  pmm := ⟨0x7f :: replicate 4095 0, 7, 32761,
    by rw [length_cons, length_replicate]; decide⟩

theorem readEntry_kernelPage {i : ℕ} (hi : i < 512) : readEntry kernelPage.mem 7 i =
    if i = 256 then userEntry 2 else PageTableEntry.empty := by
  by_cases h : i = 256
  · rw [if_pos h, h]
    exact readEntry_writeEntry _ _ _ _
  · rw [if_neg h]
    have hother : readEntry (writeEntry onePage.mem 7 256 (userEntry 2)) 7 i =
        readEntry onePage.mem 7 i := readEntry_writeEntry_ne (by decide) hi (Or.inr h)
    refine hother.trans ?_
    rw [readEntry_onePage hi, if_neg (by omega)]

theorem frameEq_kernelPage {t : ℕ} (ht : t ≠ 7) : FrameEq onePage.mem kernelPage.mem t :=
  (writeEntry_frameEq (by decide) ht).symm

theorem rising_kernelPage : Rising kernelPage.mem 2 := by
  intro u i h1 h2 hi
  rw [← readEntry_congr (frameEq_kernelPage (by omega)) hi]
  exact rising_onePage u i (by omega) h2 hi

theorem heldFrames_kernelPage : SoundTree kernelPage.mem 4 7 ∧
    heldFrames kernelPage.mem 7 = {7} := by
  apply soundTree_of_vacant 3
  intro i hi
  have hlt : i < 256 := hi
  have h512 : i < 512 := by omega
  rw [readEntry_kernelPage h512, if_neg (by omega), empty_vacant]

theorem kernelPage_ready : KernelReady 6 [7] kernelPage := by
  obtain ⟨hsound, hheld⟩ := heldFrames_kernelPage
  have haddr : kernelPage.pmm.Addressable := by
    unfold Pmm.Addressable kernelPage
    rw [length_cons, length_replicate]
    decide
  have hused : ∀ x ∈ ({2, 3, 4, 5, 6, 7} : Finset ℕ), x ∈ kernelPage.pmm.setBits := by
    intro x hx
    rw [Pmm.mem_setBits]
    simp only [mem_insert, Finset.mem_singleton] at hx
    rcases hx with rfl | rfl | rfl | rfl | rfl | rfl <;> decide
  constructor
  · refine ⟨haddr, hused 6 (by decide), forall_mem_singleton.mpr ?_,
      forall_mem_singleton.mpr ⟨haddr, hsound, ?_⟩, pairwise_singleton _ _⟩
    · rw [hheld]
      decide
    · rw [hheld, singleton_subset_iff]
      exact hused 7 (by decide)
  · refine forall_mem_singleton.mpr fun t ht => ?_
    obtain ⟨j, hj, ht⟩ := mem_biUnion.mp ht
    obtain ⟨h1, h2⟩ := mem_Ico.mp hj
    rw [readEntry_kernelPage h2] at ht
    have hmem : t ∈ ({2, 3, 4, 5} : Finset ℕ) := by
      by_cases h256 : j = 256
      · have hp : (userEntry 2).present = true := rfl
        rw [if_pos h256, if_pos hp] at ht
        have hbelow := tables_subset_footprint _ 3 2 ht
        rwa [(rising_kernelPage.tree _ rfl (fun _ => rfl) rfl).1] at hbelow
      · rw [if_neg h256, empty_present, if_neg (by decide)] at ht
        exact absurd ht (notMem_empty t)
    have hsub : ({2, 3, 4, 5} : Finset ℕ) ⊆ {2, 3, 4, 5, 6, 7} := by decide
    refine ⟨hused t (hsub hmem), forall_mem_singleton.mpr ?_⟩
    rw [hheld, Finset.mem_singleton]
    rintro rfl
    exact absurd hmem (by decide)

theorem kernelPage_clear : 32760 ≤ kernelPage.pmm.clearBits.card := by
  have hset : kernelPage.pmm.setBits ⊆ range 8 := by
    intro x hx
    rw [Finset.mem_range]
    by_contra hge
    have hbyte : kernelPage.pmm.byte (x / 8) = 0#8 := by
      obtain ⟨k, hk⟩ : ∃ k, x / 8 = k + 1 := ⟨x / 8 - 1, by omega⟩
      rw [hk]
      exact getElem?_getD_replicate_default_eq _ _ _
    rw [Pmm.mem_setBits, Pmm.test, hbyte, BitVec.zero_and] at hx
    exact absurd hx (by decide)
  have hcard := card_le_card hset
  have hpages : kernelPage.pmm.pages = 32768 := by
    unfold Pmm.pages kernelPage
    rw [length_cons, length_replicate]
  have hsum := kernelPage.pmm.card_setBits_add_card_clearBits
  rw [card_range] at hcard
  omega

/-- The memory when the page in frame 5 was given back and its entry erased. -/
def kernelPageUnmapped : Mem :=
  let m := fill kernelPage.mem (5 * 4096) 4096 0xff
  writeEntry m 4 0 (unmappedEntry (readEntry m 4 0))

theorem archMmUnmap_kernelPage :
    archMmUnmap ⟨fill kernelPage.mem (5 * 4096) 4096 0xff, kernelPage.pmm.clear 5⟩ 7
      0x800000000000 = .ok ⟨kernelPageUnmapped, kernelPage.pmm.clear 5⟩ :=
  archMmUnmap_of_unmapAlong (unmapAlong_of_follow (p := [256, 0, 0]) (t := 4) (by decide))

end UpperSegment

/-- `sys_munmap` of one page at `VMM_USER_END` clears an entry that all processes share. -/
theorem kernel_half_changed : KernelReady 6 [7] kernelPage ∧
    ∃ s', UserStep [7] kernelPage s' ∧ ¬ KernelHalfKept [7] kernelPage 7 s' := by
  have hphys : vmmVirtToPhys kernelPage.mem 7 (0x800000000000 : BitVec 64).toNat = 5 * 4096 := by
    decide
  have hcall : sysMunmap kernelPage 7 0x800000000000 0x1000 = .ok (-ENOMEM,
      ⟨kernelPageUnmapped, kernelPage.pmm.clear 5⟩) := by
    rw [sysMunmap, if_neg (by decide), if_neg (by decide),
      show (0x1000 : BitVec 64).toNat / PAGE_SIZE = 0 + 1 from rfl, munmapPages, hphys,
      if_neg (by decide), @pmmFree_one kernelPage 5 (Pmm.lt_pages_of_test (by decide)), ok_bind,
      vmmUnmap, show (0x800000000000 : BitVec 64).toNat = 0x800000000000 from rfl,
      archMmUnmap_kernelPage]
    rfl
  refine ⟨kernelPage_ready, _, ⟨7, List.mem_singleton_self 7, .munmap 0x800000000000 0x1000,
    bind_eq_ok.mpr ⟨_, hcall, rfl⟩⟩, fun hkept => ?_⟩
  -- the page table in frame 4 is one of the upper half
  have h4 : 4 ∈ kernelTables kernelPage.mem 7 := by
    refine mem_biUnion.mpr ⟨256, by decide, ?_⟩
    have hp : (userEntry 2).present = true := rfl
    rw [readEntry_kernelPage (by decide), if_pos rfl, if_pos hp]
    exact mem_tables_iff.mpr ⟨[0, 0], by decide, rising_kernelPage.walk_eq _ rfl (fun _ => rfl) rfl _⟩
  exact absurd (hkept.tables 4 h4 0 (by decide)) (by decide)

theorem kernel_half_kept_mmap : KernelReady 6 [7] kernelPage ∧
    ∃ s', BelowStep [7] kernelPage s' ∧ KernelHalfKept [7] kernelPage 7 s' := by
  have hready : SpaceReady kernelPage 7 := kernelPage_ready.vm.ready 7 (List.mem_singleton_self 7)
  have hmmap := sysMmap_post hready 0 0x1000 PROT_WRITE (MAP_PRIVATE ||| MAP_ANONYMOUS)
  obtain ⟨r, hcall, -⟩ := hmmap.returns_of_not fun _ he =>
    absurd he.2 ((by decide : _ ≤ 32760).trans kernelPage_clear).not_gt
  have hstep : BelowStep [7] kernelPage r.2 := by
    refine ⟨7, List.mem_singleton_self 7,
      .mmap 0 0x1000 PROT_WRITE (MAP_PRIVATE ||| MAP_ANONYMOUS), trivial, ?_⟩
    exact bind_eq_ok.mpr ⟨r, hcall, rfl⟩
  exact ⟨kernelPage_ready, r.2, hstep,
    kernel_half_kept_of_below 6 [7] kernelPage r.2 kernelPage_ready (.single hstep) 7
      (List.mem_singleton_self 7)⟩

end GarnOS
