import GarnOS.Paging.KernelMap
import GarnOS.Paging.Ownership

/-! The upper half in all address spaces. A new space copies the upper entries of the kernel's root,
so it sees later mappings only through tables that were there when it was made. -/
namespace GarnOS
open ByteMemory Outcome Finset RadixTree PageTableEntry Walks Relation

/-- Calls on the kernel's table, and calls that make an address space. -/
inductive KernelCall where
  | map (physAddr v : ℕ) (flags : BitVec 32)
  | unmap (v : ℕ)
  | new
  | clone (r : ℕ)

namespace KernelCall

def run (k : ℕ) (σ : VmState) : KernelCall → Except Fault VmState
  | map physAddr v flags => do
    let s ← vmmMap σ.machine k physAddr v flags
    return ⟨s, σ.spaces⟩
  | unmap v => do
    let s ← vmmUnmap σ.machine k v
    return ⟨s, σ.spaces⟩
  | new => do
    let (r, s) ← vaspaceNew σ.machine k
    return ⟨s, r :: σ.spaces⟩
  | clone r => do
    let (r', s) ← vaspaceClone σ.machine k r
    return ⟨s, r' :: σ.spaces⟩

/-- The address is one of the upper half, the space to clone is live. -/
def Valid (σ : VmState) : KernelCall → Prop
  | map _ v _ | unmap v => KernelHalf v
  | new => True
  | clone r => r ∈ σ.spaces

/-- A mapping falls under a root entry that is present, unless no space has copied the root yet; the
tables of an address that is unmapped exist. -/
def Anchored (k : ℕ) (σ : VmState) : KernelCall → Prop
  | map _ v _ => σ.spaces = [] ∨
      (readEntry σ.machine.mem k (v / 4096 / 512 / 512 / 512 % 512)).present = true
  | unmap v => ∃ t, follow (child σ.machine.mem) k (tablePath v) = some t
  | new | clone _ => True

end KernelCall

def KernelStep (k : ℕ) (σ τ : VmState) : Prop :=
  ∃ call : KernelCall, call.Valid σ ∧ call.run k σ = .ok τ

def AnchoredStep (k : ℕ) (σ τ : VmState) : Prop :=
  ∃ call : KernelCall, call.Valid σ ∧ call.Anchored k σ ∧ call.run k σ = .ok τ

/-- Every live space shows every address of the upper half as the kernel's table does. -/
def Coherent (k : ℕ) (σ : VmState) : Prop :=
  ∀ r ∈ σ.spaces, ∀ v, KernelHalf v → (translate σ.machine.mem r (pagePath v)).map Prod.snd =
    (translate σ.machine.mem k (pagePath v)).map Prod.snd

/-- The spaces share the tables of the upper half with the kernel, and own none of them. -/
structure SharedUpper (k : ℕ) (σ : VmState) : Prop where
  vm : VmInv k σ
  tables : KernelTables σ.machine k
  outside : ∀ r ∈ σ.spaces, ∀ x ∈ heldFrames σ.machine.mem r, Outside σ.machine k x
  upper : ∀ r ∈ σ.spaces, ∀ i, 256 ≤ i → i < 512 →
    readEntry σ.machine.mem r i = readEntry σ.machine.mem k i

section Steps
variable {k r : ℕ} {s s' : Machine} {spaces : List ℕ} {A : Finset ℕ} {R : Prop}

theorem SharedUpper.coherent {σ : VmState} (h : SharedUpper k σ) : Coherent k σ := by
  intro r hr v hv
  have hentry := h.upper r hr _ hv (Nat.mod_lt _ (by decide))
  simp [pagePath, mmIndexer, translate, hentry]

section
variable (h : SharedUpper k ⟨s, spaces⟩)
include h

theorem SharedUpper.grown (hg : TablesGrown k s R s') (hR : spaces ≠ [] → ¬R) :
    SharedUpper k ⟨s', spaces⟩ := by
  have hkept : ∀ r ∈ spaces, ∀ x, Outside s k x → FrameEq s.mem s'.mem x := fun r hr x hx =>
    hg.kept x hx fun hroot => absurd hroot (hR (List.ne_nil_of_mem hr))
  have hold : ∀ r ∈ spaces, SpaceReady s' r ∧ heldFrames s'.mem r = heldFrames s.mem r :=
    fun r hr => (h.vm.ready r hr).kept hg.length (fun x hx => hkept r hr x (h.outside r hr x hx))
      ((h.vm.ready r hr).used.trans hg.bits)
  have haddr : s'.pmm.Addressable := hg.tables.addressable
  refine ⟨⟨haddr, hg.bits h.vm.kernel, ?_, fun r hr => (hold r hr).1, ?_⟩, hg.tables, ?_, ?_⟩
  · intro r hr
    rw [(hold r hr).2]
    exact h.vm.apart r hr
  · refine h.vm.disjoint.imp_of_mem fun ha hb hab => ?_
    rwa [(hold _ ha).2, (hold _ hb).2]
  · intro r hr x hx
    rw [(hold r hr).2] at hx
    exact hg.outside x (h.outside r hr x hx)
  · intro r hr i hlo hi
    have hself : r ∈ heldFrames s.mem r := self_mem_heldFrames _ r
    have hr' := readEntry_congr (hkept r hr r (h.outside r hr r hself)) hi
    have hk' := readEntry_congr (hkept r hr k h.tables.root) hi
    rw [← hr', ← hk']
    exact h.upper r hr i hlo hi

theorem SharedUpper.add (hacq : Acquired s A A s') (hvm : VmInv k ⟨s', r :: spaces⟩)
    (hframes : heldFrames s'.mem r ⊆ A)
    (hupper : ∀ i, 256 ≤ i → i < 512 → readEntry s'.mem r i = readEntry s.mem k i) :
    SharedUpper k ⟨s', r :: spaces⟩ := by
  obtain ⟨hg, hfresh⟩ := h.tables.elsewhere hacq
  have hrest := h.grown hg fun _ hfalse => hfalse
  refine ⟨hvm, hg.tables, ?_, ?_⟩
  · intro a ha x hx
    obtain rfl | ha := List.mem_cons.mp ha
    · exact hfresh x (hframes hx)
    · exact hrest.outside a ha x hx
  · intro a ha i hlo hi
    obtain rfl | ha := List.mem_cons.mp ha
    · rw [hupper i hlo hi]
      exact readEntry_congr (hg.kept k h.tables.root False.elim) hi
    · exact hrest.upper a ha i hlo hi

theorem SharedUpper.new_post :
    Post (vaspaceNew s k) (fun r => SharedUpper k ⟨r.2, r.1 :: spaces⟩) (fun _ => True) := by
  refine ((h.vm.new_post).and (archVaspaceNew_post s h.vm.kernel)).mono ?_ fun _ _ => trivial
  rintro ⟨r, s'⟩ ⟨hvm, -, hacq, hlower, hupper⟩
  obtain ⟨-, hfoot⟩ := soundTree_of_vacant (m := s'.mem) (t := r) 3 fun i hi => by
    rw [hlower i hi, empty_vacant]
  exact h.add hacq hvm (le_of_eq hfoot) hupper

theorem SharedUpper.clone_post (hr : r ∈ spaces) :
    Post (vaspaceClone s k r) (fun r => SharedUpper k ⟨r.2, r.1 :: spaces⟩) (fun _ => True) := by
  have hwf := (h.vm.ready r hr).wellFormed
  have hclone := (h.vm.clone_post hr).and (archVaspaceClone_post hwf h.vm.kernel)
  refine hclone.mono ?_ fun _ _ => trivial
  rintro ⟨r', s'⟩ ⟨hvm, hacq, hcopies, -, hupper⟩
  exact h.add hacq hvm (le_of_eq (footprint_congr hcopies.agree_held)) hupper

end

theorem SharedUpper.step {σ τ : VmState} (h : SharedUpper k σ) (hstep : AnchoredStep k σ τ) :
    SharedUpper k τ := by
  obtain ⟨call, hvalid, hanchored, hrun⟩ := hstep
  cases call with
  | map physAddr v flags =>
    obtain ⟨s', hmap, hret⟩ := bind_eq_ok.mp hrun
    cases hret
    obtain ⟨hg, -⟩ := (h.tables.vmmMap_post hvalid physAddr flags).of_ok hmap
    refine h.grown hg fun hne habsent => ?_
    obtain hnil | hpresent := hanchored
    · exact hne hnil
    · rw [hpresent] at habsent
      cases habsent
  | unmap v =>
    obtain ⟨s, hunmap, hret⟩ := bind_eq_ok.mp hrun
    cases hret
    obtain ⟨t, ht⟩ := hanchored
    obtain ⟨s', hcall, hg, -⟩ := h.tables.unmapped hvalid ht
    cases hcall.symm.trans hunmap
    exact h.grown hg fun _ hfalse => hfalse
  | new =>
    obtain ⟨⟨r, s'⟩, hnew, hret⟩ := bind_eq_ok.mp hrun
    cases hret
    exact h.new_post.of_ok hnew
  | clone r =>
    obtain ⟨⟨r', s'⟩, hclone, hret⟩ := bind_eq_ok.mp hrun
    cases hret
    exact (h.clone_post hvalid).of_ok hclone

theorem SharedUpper.start (h : KernelTables s k) : SharedUpper k ⟨s, []⟩ :=
  ⟨⟨h.addressable, h.root.1, by simp, by simp, .nil⟩, h, by simp, by simp⟩

end Steps

/-- If every mapping falls under a root entry that is present and every unmapping finds its tables,
all spaces agree with the kernel's table in the upper half, in every state that is reached. -/
theorem kernel_half_coherent {k : ℕ} {s : Machine} (h : KernelTables s k) {σ : VmState}
    (hrun : ReflTransGen (AnchoredStep k) ⟨s, []⟩ σ) : Coherent k σ := by
  have hshared : SharedUpper k σ :=
    Runs.invariant (fun _ _ hinv hstep => SharedUpper.step hinv hstep) (SharedUpper.start h) hrun
  exact hshared.coherent

/-- A page below the first root entry of the upper half, and a page of the device memory that starts
at 512 GiB, below the second one. -/
theorem kernelHalf_first : KernelHalf 0xffff800000000000 ∧ KernelHalf 0xffff808000000000 := by
  unfold KernelHalf
  decide

theorem kernel_half_coherent_emptyRoot : KernelTables emptyRoot 1 ∧ ∃ s₁ r s₂,
    vmmMap emptyRoot 1 0 0xffff800000000000 3 = .ok s₁ ∧ vaspaceNew s₁ 1 = .ok (r, s₂) ∧
    Coherent 1 ⟨s₂, [r]⟩ := by
  refine ⟨kernelTables_emptyRoot, ?_⟩
  have hsix : emptyRoot.pmm.clearBits.card = 6 := by decide
  obtain ⟨s₁, hmap, hg, -, -, hcard⟩ :=
    (kernelTables_emptyRoot.vmmMap_post kernelHalf_first.1 0 3).returns_of_not (by omega)
  obtain ⟨⟨r, s₂⟩, hnew, -⟩ :=
    (archVaspaceNew_post s₁ hg.tables.root.1).returns_of_not (by omega)
  have hfirst : AnchoredStep 1 ⟨emptyRoot, []⟩ ⟨s₁, []⟩ := by
    refine ⟨.map 0 0xffff800000000000 3, kernelHalf_first.1, .inl rfl, ?_⟩
    exact bind_eq_ok.mpr ⟨_, hmap, rfl⟩
  have hsecond : AnchoredStep 1 ⟨s₁, []⟩ ⟨s₂, [r]⟩ := by
    refine ⟨.new, trivial, trivial, ?_⟩
    exact bind_eq_ok.mpr ⟨_, hnew, rfl⟩
  exact ⟨s₁, r, s₂, hmap, hnew,
    kernel_half_coherent kernelTables_emptyRoot (.tail (.single hfirst) hsecond)⟩

/-- A mapping under a root entry that is new: the space made before it does not see the page. -/
theorem kernel_mapping_missed : KernelTables emptyRoot 1 ∧
    ∃ σ, ReflTransGen (KernelStep 1) ⟨emptyRoot, []⟩ σ ∧ ¬Coherent 1 σ := by
  refine ⟨kernelTables_emptyRoot, ?_⟩
  have hsix : emptyRoot.pmm.clearBits.card = 6 := by decide
  have hstart := SharedUpper.start kernelTables_emptyRoot
  obtain ⟨⟨r, s⟩, hnew, hfree, hacq, -, hupper⟩ :=
    (archVaspaceNew_post emptyRoot hstart.vm.kernel).returns_of_not (by omega)
  dsimp only at hfree hacq hupper
  have hshared : SharedUpper 1 ⟨s, [r]⟩ := hstart.new_post.of_ok hnew
  have hne : r ≠ 1 := fun hr => hfree (hr ▸ hstart.vm.kernel)
  have hcard := hacq.card_clearBits
  rw [card_singleton] at hcard
  have hpost := hshared.tables.vmmMap_post kernelHalf_first.2 0x8000000000 3
  dsimp only at hpost
  obtain ⟨s', hmap, hg, -, hpage, -⟩ := hpost.returns_of_not (by omega)
  have hfirst : KernelStep 1 ⟨emptyRoot, []⟩ ⟨s, [r]⟩ := by
    refine ⟨.new, trivial, ?_⟩
    exact bind_eq_ok.mpr ⟨_, hnew, rfl⟩
  have hsecond : KernelStep 1 ⟨s, [r]⟩ ⟨s', [r]⟩ := by
    refine ⟨.map 0x8000000000 0xffff808000000000 3, kernelHalf_first.2, ?_⟩
    exact bind_eq_ok.mpr ⟨_, hmap, rfl⟩
  refine ⟨⟨s', [r]⟩, .tail (.single hfirst) hsecond, fun hcoherent => ?_⟩
  -- The root of the space is outside the kernel's tables, so its entry is still absent.
  have hout := hshared.outside r (by simp) r (self_mem_heldFrames _ r)
  have hentry : readEntry s'.mem r 257 = PageTableEntry.empty := by
    rw [← readEntry_congr (hg.kept r hout fun _ => hne) (by decide),
      hupper 257 (by decide) (by decide)]
    exact readEntry_zero 1 257
  have habsent : translate s'.mem r (pagePath 0xffff808000000000) = none := by
    simp only [pagePath, mmIndexer, translate]
    norm_num [hentry]
  have hsame := hcoherent r (by simp) _ kernelHalf_first.2
  rw [habsent, translate_eq_follow, hpage] at hsame
  exact absurd hsame (by decide)

end GarnOS
