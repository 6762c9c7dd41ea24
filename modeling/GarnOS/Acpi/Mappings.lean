import GarnOS.Library.Runs
import GarnOS.Paging.KernelMap

/-! The mappings that ACPI asks for. They are made in the kernel's direct map, one page after
another, and nothing counts how many ranges use a page. -/
namespace GarnOS.Uacpi
open ByteMemory Outcome PageTableEntry Walks Nat Relation

/-- Where the bootloader put the direct map: a page boundary of the upper half. -/
structure DirectMap where
  offset : ℕ
  aligned : offset % 4096 = 0
  upper : 2 ^ 64 - 2 ^ 47 ≤ offset
  lt : offset < 2 ^ 64

def uacpiKernelMap (s : Machine) (pt : ℕ) (hhdm : DirectMap) (addr len : ℕ) :
    Except Fault (ℕ × Machine) := do
  let s ← vmmMapRange s pt addr ((addr + hhdm.offset) % 2 ^ 64) len
    (VMM_CACHE_DISABLE ||| VMM_RW ||| VMM_PRESENT)
  return ((addr + hhdm.offset) % 2 ^ 64, s)

def uacpiKernelUnmap (s : Machine) (pt addr len : ℕ) : Except Fault Machine :=
  vmmUnmapRange s pt addr len

/-- The physical address of a byte, by the processor's walk. -/
def physical (m : Mem) (pt virtAddr : ℕ) : Option ℕ :=
  (translate m pt (pagePath virtAddr)).map fun r => r.2 * 4096 + virtAddr % 4096

structure PhysRange where
  addr : ℕ
  len : ℕ
  deriving DecidableEq

namespace PhysRange

def Touches (r : PhysRange) (p : ℕ) : Prop := ∃ i < r.len, (r.addr + i) / 4096 = p

/-- The page is one of those that the loops go through. -/
def Visits (r : PhysRange) (p : ℕ) : Prop :=
  r.addr / 4096 ≤ p ∧ p < r.addr / 4096 + (r.len + 4095) / 4096

instance (r : PhysRange) (p : ℕ) : Decidable (r.Visits p) := inferInstanceAs (Decidable (_ ∧ _))

end PhysRange

structure MapState where
  machine : Machine
  live : List PhysRange

inductive MapCall where
  | map (r : PhysRange)
  | unmap (r : PhysRange)

section Calls
variable (k : ℕ) (hhdm : DirectMap)

def MapCall.run (σ : MapState) : MapCall → Except Fault MapState
  | map r => do
    let (_, s) ← uacpiKernelMap σ.machine k hhdm r.addr r.len
    return ⟨s, r :: σ.live⟩
  | unmap r => do
    let s ← uacpiKernelUnmap σ.machine k ((r.addr + hhdm.offset) % 2 ^ 64) r.len
    return ⟨s, σ.live.erase r⟩

/-- Arguments are 64-bit numbers, and what is unmapped was mapped. -/
def MapCall.Valid (σ : MapState) : MapCall → Prop
  | map r => r.addr < 2 ^ 64 ∧ r.len < 2 ^ 64
  | unmap r => r ∈ σ.live

/-- The direct map of `m` shows physical address `a` at its place. -/
def Direct (m : Mem) (a : ℕ) : Prop :=
  a + hhdm.offset < 2 ^ 64 ∧ physical m k (a + hhdm.offset) = some a

/-- A range that is mapped lies in the direct map and its loop reaches the last byte. The pages of a
range that is unmapped hold no byte of another live range, and the direct map of the start did not
show them. -/
def MapCall.Separate (start : Machine) (σ : MapState) : MapCall → Prop
  | map r => r.addr + r.len + hhdm.offset ≤ 2 ^ 64 ∧
      (r.len = 0 ∨ r.addr % 4096 + r.len ≤ 4096 * ((r.len + 4095) / 4096))
  | unmap r => ∀ p, r.Visits p →
      (∀ q ∈ σ.live.erase r, ¬q.Touches p) ∧ ¬Direct k hhdm start.mem (p * 4096)

def MapStep (σ τ : MapState) : Prop := ∃ call : MapCall, call.Valid σ ∧ call.run k hhdm σ = .ok τ

def SeparateStep (start : Machine) (σ τ : MapState) : Prop :=
  ∃ call : MapCall, call.Valid σ ∧ call.Separate k hhdm start σ ∧ call.run k hhdm σ = .ok τ

/-- Every byte of a live range is at its place, and so is what the direct map showed at the
start. -/
structure Nested (start : Machine) (σ : MapState) : Prop where
  live : ∀ r ∈ σ.live, ∀ i < r.len,
    physical σ.machine.mem k ((r.addr + i + hhdm.offset) % 2 ^ 64) = some (r.addr + i)
  direct : ∀ a, Direct k hhdm start.mem a → Direct k hhdm σ.machine.mem a

end Calls

section Pages
variable {hhdm : DirectMap} {k p q a : ℕ} {m : Mem} {s : Machine}

def DirectMap.Page (hhdm : DirectMap) (p : ℕ) : Prop := p * 4096 + hhdm.offset < 2 ^ 64

/-- The frame that the direct map shows at the place of frame `p`. -/
def shown (hhdm : DirectMap) (k : ℕ) (m : Mem) (p : ℕ) : Option ℕ :=
  follow (child m) k (pagePath (p * 4096 + hhdm.offset))

theorem DirectMap.page_of_lt (h : a + hhdm.offset < 2 ^ 64) : hhdm.Page (a / 4096) := by
  unfold DirectMap.Page
  omega

theorem kernelHalf_of_le {v : ℕ} (hlo : 2 ^ 64 - 2 ^ 47 ≤ v) (hhi : v < 2 ^ 64) : KernelHalf v := by
  unfold KernelHalf
  omega

theorem DirectMap.Page.kernelHalf (h : hhdm.Page p) : KernelHalf (p * 4096 + hhdm.offset) :=
  kernelHalf_of_le (hhdm.upper.trans (le_add_left _ _)) h

theorem DirectMap.pagePath_add (a : ℕ) :
    pagePath (a + hhdm.offset) = pagePath (a / 4096 * 4096 + hhdm.offset) := by
  have := hhdm.aligned
  exact pagePath_congr (by omega)

theorem DirectMap.Page.eq_of_pagePath (hp : hhdm.Page p) (hq : hhdm.Page q)
    (h : pagePath (p * 4096 + hhdm.offset) = pagePath (q * 4096 + hhdm.offset)) : p = q := by
  simp only [pagePath, mmIndexer, List.cons.injEq, and_true] at h
  unfold DirectMap.Page at hp hq
  have := hhdm.upper
  omega

theorem physical_eq (a : ℕ) :
    physical m k (a + hhdm.offset) = (shown hhdm k m (a / 4096)).map fun f => f * 4096 + a % 4096 := by
  have hmod : (a + hhdm.offset) % 4096 = a % 4096 := by
    have := hhdm.aligned
    omega
  rw [physical, shown, DirectMap.pagePath_add, ← translate_eq_follow, Option.map_map, hmod]
  rfl

theorem physical_iff :
    physical m k (a + hhdm.offset) = some a ↔ shown hhdm k m (a / 4096) = some (a / 4096) := by
  rw [physical_eq, Option.map_eq_some_iff]
  constructor
  · rintro ⟨f, hf, ha⟩
    rw [hf]
    congr 1
    omega
  · exact fun h => ⟨a / 4096, h, by omega⟩

theorem mapPage_post (h : KernelTables s k) (hp : hhdm.Page p) {physAddr virtAddr : ℕ}
    (hphys : physAddr / 4096 = p) (hvirt : virtAddr / 4096 = (p * 4096 + hhdm.offset) / 4096) :
    Post (vmmMap s k physAddr virtAddr (VMM_CACHE_DISABLE ||| VMM_RW ||| VMM_PRESENT))
      (fun s' => KernelTables s' k ∧ (∀ q, hhdm.Page q →
        shown hhdm k s'.mem q = if q = p then some p else shown hhdm k s.mem q) ∧
        s.pmm.clearBits.card ≤ s'.pmm.clearBits.card + 3)
      (fun e => e = outOfMemory ∧ s.pmm.clearBits.card < 3) := by
  have hpath := pagePath_congr hvirt
  have hhalf : KernelHalf virtAddr := by
    have := hp.kernelHalf
    unfold KernelHalf at this ⊢
    rwa [hvirt]
  refine (h.vmmMap_post hhalf physAddr _).mono_ok ?_
  rintro s' ⟨hg, hothers, hself, hcard⟩
  refine ⟨hg.tables, fun q hq => ?_, hcard⟩
  by_cases hqp : q = p
  · have hframe : (BitVec.ofNat 51 p).toNat = p := by
      unfold DirectMap.Page at hp
      have := hhdm.upper
      rw [BitVec.toNat_ofNat]
      omega
    rw [if_pos hqp, hqp, shown, ← hpath, hself, if_pos (by decide), hphys, hframe]
  · rw [if_neg hqp, shown, shown]
    apply hothers _ hq.kernelHalf.upper rfl
    rw [hpath]
    exact fun he => hqp (hq.eq_of_pagePath hp he)

theorem unmapPage (h : KernelTables s k) (hp : hhdm.Page p) {virtAddr f : ℕ}
    (hshown : shown hhdm k s.mem p = some f)
    (hvirt : virtAddr / 4096 = (p * 4096 + hhdm.offset) / 4096) :
    ∃ s', vmmUnmap s k virtAddr = .ok s' ∧ KernelTables s' k ∧ ∀ q, hhdm.Page q →
      shown hhdm k s'.mem q = if q = p then none else shown hhdm k s.mem q := by
  have hpath := pagePath_congr hvirt
  have hhalf : KernelHalf virtAddr := by
    have := hp.kernelHalf
    unfold KernelHalf at this ⊢
    rwa [hvirt]
  obtain ⟨t, ht⟩ : ∃ t, follow (child s.mem) k (tablePath virtAddr) = some t := by
    rw [shown, ← hpath, pagePath_eq, follow_concat] at hshown
    obtain ⟨t, ht, -⟩ := Option.bind_eq_some_iff.mp hshown
    exact ⟨t, ht⟩
  obtain ⟨s', hcall, hg, hothers, hself⟩ := h.unmapped hhalf ht
  refine ⟨s', hcall, hg.tables, fun q hq => ?_⟩
  by_cases hqp : q = p
  · rw [if_pos hqp, hqp, shown, ← hpath, hself]
  · rw [if_neg hqp, shown, shown]
    apply hothers _ hq.kernelHalf.upper rfl
    rw [hpath]
    exact fun he => hqp (hq.eq_of_pagePath hp he)

theorem round_page {r : PhysRange} {i : ℕ} (hwin : r.addr + r.len + hhdm.offset ≤ 2 ^ 64)
    (hi : i < (r.len + (PAGE_SIZE - 1)) / PAGE_SIZE) :
    hhdm.Page (r.addr / 4096 + i) ∧
    (r.addr + i * PAGE_SIZE) % 2 ^ 64 / 4096 = r.addr / 4096 + i ∧
    ((r.addr + hhdm.offset) % 2 ^ 64 + i * PAGE_SIZE) % 2 ^ 64 / 4096 =
      ((r.addr / 4096 + i) * 4096 + hhdm.offset) / 4096 := by
  have hal := hhdm.aligned
  unfold PAGE_SIZE at hi ⊢
  have hwrap : (r.addr + hhdm.offset) % 2 ^ 64 = r.addr + hhdm.offset := mod_eq_of_lt (by omega)
  have hvirt : (r.addr + hhdm.offset + i * 4096) % 2 ^ 64 = r.addr + hhdm.offset + i * 4096 :=
    mod_eq_of_lt (by omega)
  have hphys : (r.addr + i * 4096) % 2 ^ 64 = r.addr + i * 4096 := mod_eq_of_lt (by omega)
  rw [hwrap, hvirt, hphys]
  refine ⟨?_, add_mul_div_right _ _ (by decide), ?_⟩
  · calc (r.addr / 4096 + i) * 4096 + hhdm.offset
      _ ≤ r.addr + i * 4096 + hhdm.offset := by omega
      _ < r.addr + r.len + hhdm.offset := by omega
      _ ≤ 2 ^ 64 := hwin
  · omega

theorem uacpiKernelMap_post (h : KernelTables s k) {r : PhysRange}
    (hwin : r.addr + r.len + hhdm.offset ≤ 2 ^ 64) :
    Post (uacpiKernelMap s k hhdm r.addr r.len)
      (fun t => KernelTables t.2 k ∧ (∀ q, hhdm.Page q → shown hhdm k t.2.mem q =
        if r.Visits q then some q else shown hhdm k s.mem q) ∧
        s.pmm.clearBits.card ≤ t.2.pmm.clearBits.card + 3 * ((r.len + 4095) / 4096))
      (fun e => e = outOfMemory ∧ s.pmm.clearBits.card < 3 * ((r.len + 4095) / 4096)) := by
  have hup := hhdm.upper
  have hloop : Post (vmmMapRange s k r.addr ((r.addr + hhdm.offset) % 2 ^ 64) r.len
      (VMM_CACHE_DISABLE ||| VMM_RW ||| VMM_PRESENT))
      (fun s' => KernelTables s' k ∧ (∀ q, hhdm.Page q → shown hhdm k s'.mem q =
        if r.addr / 4096 ≤ q ∧ q < r.addr / 4096 + (0 + (r.len + (PAGE_SIZE - 1)) / PAGE_SIZE)
          then some q else shown hhdm k s.mem q) ∧
        s.pmm.clearBits.card ≤ s'.pmm.clearBits.card +
          3 * (0 + (r.len + (PAGE_SIZE - 1)) / PAGE_SIZE))
      (fun e => e = outOfMemory ∧
        s.pmm.clearBits.card < 3 * ((r.len + (PAGE_SIZE - 1)) / PAGE_SIZE)) := by
    rw [vmmMapRange, if_neg (by unfold PAGE_SIZE; omega)]
    apply forRange_post (fun i (s' : Machine) => KernelTables s' k ∧ (∀ q, hhdm.Page q →
      shown hhdm k s'.mem q = if r.addr / 4096 ≤ q ∧ q < r.addr / 4096 + i then some q
        else shown hhdm k s.mem q) ∧ s.pmm.clearBits.card ≤ s'.pmm.clearBits.card + 3 * i)
    · exact ⟨h, fun q _ => by rw [if_neg (by omega)], le_add_right _ _⟩
    rintro i u - hi ⟨htables, hshown, hcard⟩
    rw [zero_add] at hi
    obtain ⟨hpage, hphys, hvirt⟩ := round_page hwin hi
    refine (mapPage_post htables hpage hphys hvirt).mono ?_ ?_
    · rintro u' ⟨htables', hshown', hcard'⟩
      refine ⟨htables', fun q hq => ?_, by omega⟩
      rw [hshown' q hq, hshown q hq]
      by_cases hq : q = r.addr / 4096 + i
      · rw [if_pos hq, if_pos (by omega), hq]
      · rw [if_neg hq]
        exact if_congr (by omega) rfl rfl
    · rintro e ⟨rfl, hfew⟩
      exact ⟨rfl, by omega⟩
  apply hloop.bind
  rintro s' ⟨htables, hshown, hcard⟩
  rw [zero_add] at hshown hcard
  exact post_ok.mpr ⟨htables, hshown, hcard⟩

theorem uacpiKernelUnmap_ok (h : KernelTables s k) {r : PhysRange}
    (hwin : r.addr + r.len + hhdm.offset ≤ 2 ^ 64)
    (hshown : ∀ p, r.Visits p → ∃ f, shown hhdm k s.mem p = some f) :
    ∃ s', uacpiKernelUnmap s k ((r.addr + hhdm.offset) % 2 ^ 64) r.len = .ok s' ∧
      KernelTables s' k ∧ ∀ q, hhdm.Page q → shown hhdm k s'.mem q =
        if r.Visits q then none else shown hhdm k s.mem q := by
  have hup := hhdm.upper
  rw [uacpiKernelUnmap, vmmUnmapRange, if_neg (by unfold PAGE_SIZE; omega)]
  refine (Post.mono_ok (forRange_post (fun i (s' : Machine) => KernelTables s' k ∧
    ∀ q, hhdm.Page q → shown hhdm k s'.mem q =
      if r.addr / 4096 ≤ q ∧ q < r.addr / 4096 + i then none else shown hhdm k s.mem q)
    ⟨h, fun q _ => by rw [if_neg (by omega)]⟩ ?_) fun s' hs => by rwa [zero_add] at hs).returns
  rintro i u - hi ⟨htables, hrest⟩
  rw [zero_add] at hi
  obtain ⟨hpage, -, hvirt⟩ := round_page hwin hi
  obtain ⟨f, hf⟩ := hshown (r.addr / 4096 + i) ⟨Nat.le_add_right _ _, Nat.add_lt_add_left hi _⟩
  -- the earlier rounds have not reached this page, so its tables are still found
  have hnow : shown hhdm k u.mem (r.addr / 4096 + i) = some f := by
    rw [hrest _ hpage, if_neg (by omega), hf]
  obtain ⟨u', hcall, htables', hshown'⟩ := unmapPage htables hpage hnow hvirt
  rw [hcall]
  refine post_ok.mpr ⟨htables', fun q hq => ?_⟩
  rw [hshown' q hq, hrest q hq]
  by_cases hq : q = r.addr / 4096 + i
  · rw [if_pos hq, if_pos (by omega)]
  · rw [if_neg hq]
    exact if_congr (by omega) rfl rfl

end Pages

section Runs
variable {hhdm : DirectMap} {k p : ℕ} {start : Machine} {σ τ : MapState} {r : PhysRange}

/-- The same as `Nested`, page by page, with what the next call needs. -/
structure NestInv (hhdm : DirectMap) (k : ℕ) (start : Machine) (σ : MapState) : Prop where
  tables : KernelTables σ.machine k
  window : ∀ r ∈ σ.live, r.addr + r.len + hhdm.offset ≤ 2 ^ 64
  live : ∀ r ∈ σ.live, ∀ p, r.Touches p → shown hhdm k σ.machine.mem p = some p
  direct : ∀ p, hhdm.Page p → shown hhdm k start.mem p = some p →
    shown hhdm k σ.machine.mem p = some p

theorem PhysRange.Touches.page (h : r.Touches p) (hwin : r.addr + r.len + hhdm.offset ≤ 2 ^ 64) :
    hhdm.Page p := by
  obtain ⟨i, hi, rfl⟩ := h
  exact DirectMap.page_of_lt (by omega)

theorem PhysRange.Visits.touches (h : r.Visits p) : r.Touches p := by
  unfold Visits at h
  exact ⟨(p - r.addr / 4096) * 4096, by omega, by omega⟩

theorem PhysRange.Touches.visits (h : r.Touches p)
    (hreach : r.len = 0 ∨ r.addr % 4096 + r.len ≤ 4096 * ((r.len + 4095) / 4096)) : r.Visits p := by
  obtain ⟨i, hi, rfl⟩ := h
  unfold Visits
  omega

theorem NestInv.nested (h : NestInv hhdm k start σ) : Nested k hhdm start σ where
  live r hr i hi := by
    have hwin := h.window r hr
    have hwrap : (r.addr + i + hhdm.offset) % 2 ^ 64 = r.addr + i + hhdm.offset :=
      mod_eq_of_lt (by omega)
    rw [hwrap, physical_iff]
    exact h.live r hr _ ⟨i, hi, rfl⟩
  direct a ha := by
    refine ⟨ha.1, physical_iff.mpr ?_⟩
    exact h.direct _ (DirectMap.page_of_lt ha.1) (physical_iff.mp ha.2)

theorem NestInv.map (h : NestInv hhdm k start σ) (hwin : r.addr + r.len + hhdm.offset ≤ 2 ^ 64)
    (hreach : r.len = 0 ∨ r.addr % 4096 + r.len ≤ 4096 * ((r.len + 4095) / 4096)) :
    Post (uacpiKernelMap σ.machine k hhdm r.addr r.len)
      (fun t => NestInv hhdm k start ⟨t.2, r :: σ.live⟩) (fun _ => True) := by
  refine (uacpiKernelMap_post h.tables hwin).mono ?_ fun _ _ => trivial
  rintro ⟨v, s⟩ ⟨htables, hshown, -⟩
  -- a page that was at its place stays there: the loop maps pages to themselves
  have hkeep : ∀ q, hhdm.Page q → shown hhdm k σ.machine.mem q = some q →
      shown hhdm k s.mem q = some q := by
    intro q hq hold
    rw [hshown q hq, hold, ite_self]
  refine ⟨htables, ?_, ?_, fun q hq hq0 => hkeep q hq (h.direct q hq hq0)⟩
  · intro a ha
    obtain rfl | ha := List.mem_cons.mp ha
    · exact hwin
    · exact h.window a ha
  · intro a ha q hq
    obtain rfl | ha := List.mem_cons.mp ha
    · rw [hshown q (hq.page hwin), if_pos (hq.visits hreach)]
    · exact hkeep q (hq.page (h.window a ha)) (h.live a ha q hq)

theorem NestInv.unmap (h : NestInv hhdm k start σ) (hr : r ∈ σ.live)
    (hsep : ∀ p, r.Visits p →
      (∀ q ∈ σ.live.erase r, ¬q.Touches p) ∧ ¬Direct k hhdm start.mem (p * 4096)) :
    ∃ s, uacpiKernelUnmap σ.machine k ((r.addr + hhdm.offset) % 2 ^ 64) r.len = .ok s ∧
      NestInv hhdm k start ⟨s, σ.live.erase r⟩ := by
  have hwin := h.window r hr
  obtain ⟨s, hrun, htables, hshown⟩ := uacpiKernelUnmap_ok h.tables hwin fun q hq =>
    ⟨q, h.live r hr q hq.touches⟩
  refine ⟨s, hrun, htables, fun a ha => h.window a (List.mem_of_mem_erase ha), ?_, ?_⟩
  · intro a ha q hq
    have ha' := List.mem_of_mem_erase ha
    have hfree : ¬r.Visits q := fun hv => (hsep q hv).1 a ha hq
    rw [hshown q (hq.page (h.window a ha')), if_neg hfree]
    exact h.live a ha' q hq
  · intro q hq hq0
    have hfree : ¬r.Visits q := by
      intro hv
      refine (hsep q hv).2 ⟨hq, physical_iff.mpr ?_⟩
      rw [Nat.mul_div_cancel q (by decide)]
      exact hq0
    rw [hshown q hq, if_neg hfree]
    exact h.direct q hq hq0

theorem NestInv.step (h : NestInv hhdm k start σ) (hstep : SeparateStep k hhdm start σ τ) :
    NestInv hhdm k start τ := by
  obtain ⟨call, hvalid, hsep, hrun⟩ := hstep
  cases call with
  | map r =>
    obtain ⟨⟨v, s⟩, hmap, hret⟩ := bind_eq_ok.mp hrun
    cases hret
    exact (h.map hsep.1 hsep.2).of_ok hmap
  | unmap r =>
    obtain ⟨s, hunmap, hret⟩ := bind_eq_ok.mp hrun
    cases hret
    obtain ⟨s', hunmap', hinv⟩ := h.unmap hvalid hsep
    cases hunmap.symm.trans hunmap'
    exact hinv

theorem NestInv.initial (h : KernelTables start k) : NestInv hhdm k start ⟨start, []⟩ :=
  ⟨h, by simp, by simp, fun _ _ hp => hp⟩

end Runs

/-- Mappings nest as long as every call is separate from the pages that others rely on. -/
theorem acpi_mappings_nest {k : ℕ} {hhdm : DirectMap} {start : Machine} (h : KernelTables start k)
    {σ : MapState} (hrun : ReflTransGen (SeparateStep k hhdm start) ⟨start, []⟩ σ) :
    Nested k hhdm start σ := by
  have hinv : NestInv hhdm k start σ :=
    Runs.invariant (fun _ _ hinv hstep => NestInv.step hinv hstep) (NestInv.initial h) hrun
  exact hinv.nested

def upperMap : DirectMap := ⟨0xffff800000000000, by decide, by decide, by decide⟩

def tableRange : PhysRange := ⟨0xe0000, 16⟩

def nextRange : PhysRange := ⟨0xe1000, 32⟩

theorem tableRange_visits {p : ℕ} : tableRange.Visits p ↔ p = 0xe0 := by
  simp only [PhysRange.Visits, tableRange]
  omega

theorem nextRange_touches {p : ℕ} (h : nextRange.Touches p) : p = 0xe1 := by
  obtain ⟨i, hi, rfl⟩ := h
  simp only [nextRange] at hi ⊢
  omega

theorem tableRange_window : tableRange.addr + tableRange.len + upperMap.offset ≤ 2 ^ 64 ∧
    tableRange.addr % 4096 + tableRange.len ≤ 4096 * ((tableRange.len + 4095) / 4096) := by
  decide

theorem nextRange_window : nextRange.addr + nextRange.len + upperMap.offset ≤ 2 ^ 64 ∧
    nextRange.addr % 4096 + nextRange.len ≤ 4096 * ((nextRange.len + 4095) / 4096) := by
  decide

theorem uacpiKernelMap_returns {s : Machine} {k : ℕ} {hhdm : DirectMap} (h : KernelTables s k)
    (r : PhysRange) (hwin : r.addr + r.len + hhdm.offset ≤ 2 ^ 64)
    (hone : (r.len + 4095) / 4096 = 1) (hfree : 3 ≤ s.pmm.clearBits.card) :
    ∃ v s', uacpiKernelMap s k hhdm r.addr r.len = .ok (v, s') ∧ KernelTables s' k ∧
      (∀ q, hhdm.Page q → shown hhdm k s'.mem q =
        if r.Visits q then some q else shown hhdm k s.mem q) ∧
      s.pmm.clearBits.card ≤ s'.pmm.clearBits.card + 3 := by
  have hpost := uacpiKernelMap_post h hwin
  rw [hone] at hpost
  obtain ⟨t, hrun⟩ := hpost.returns_of_not (by omega)
  exact ⟨t.1, t.2, hrun⟩

theorem not_direct_emptyRoot (a : ℕ) : ¬Direct 1 upperMap emptyRoot.mem a := by
  rintro ⟨-, hphys⟩
  obtain ⟨r, hr, -⟩ := Option.map_eq_some_iff.mp hphys
  have hfollow := translate_eq_follow emptyRoot.mem 1 (pagePath (a + upperMap.offset))
  rw [hr, Option.map_some] at hfollow
  have hnil := (follow_emptyRoot hfollow.symm).1
  cases hnil

theorem acpi_mappings_nest_neighbours : KernelTables emptyRoot 1 ∧ ∃ v₁ s₁ v₂ s₂ s₃,
    uacpiKernelMap emptyRoot 1 upperMap tableRange.addr tableRange.len = .ok (v₁, s₁) ∧
    uacpiKernelMap s₁ 1 upperMap nextRange.addr nextRange.len = .ok (v₂, s₂) ∧
    uacpiKernelUnmap s₂ 1 ((tableRange.addr + upperMap.offset) % 2 ^ 64) tableRange.len = .ok s₃ ∧
    Nested 1 upperMap emptyRoot ⟨s₃, [nextRange]⟩ := by
  refine ⟨kernelTables_emptyRoot, ?_⟩
  have hsix : emptyRoot.pmm.clearBits.card = 6 := by decide
  obtain ⟨hwin₁, hreach₁⟩ := tableRange_window
  obtain ⟨hwin₂, hreach₂⟩ := nextRange_window
  obtain ⟨v₁, s₁, hrun₁, htables₁, -, hcard₁⟩ :=
    uacpiKernelMap_returns kernelTables_emptyRoot tableRange hwin₁ (by decide)
      (by rw [hsix]; decide)
  rw [hsix] at hcard₁
  obtain ⟨v₂, s₂, hrun₂, -⟩ :=
    uacpiKernelMap_returns htables₁ nextRange hwin₂ (by decide) (by omega)
  have hfirst : SeparateStep 1 upperMap emptyRoot ⟨emptyRoot, []⟩ ⟨s₁, [tableRange]⟩ := by
    refine ⟨.map tableRange, ⟨by decide, by decide⟩, ⟨hwin₁, .inr hreach₁⟩, ?_⟩
    rw [MapCall.run, hrun₁]
    rfl
  have hsecond : SeparateStep 1 upperMap emptyRoot ⟨s₁, [tableRange]⟩
      ⟨s₂, [nextRange, tableRange]⟩ := by
    refine ⟨.map nextRange, ⟨by decide, by decide⟩, ⟨hwin₂, .inr hreach₂⟩, ?_⟩
    rw [MapCall.run, hrun₂]
    rfl
  have hlive : tableRange ∈ [nextRange, tableRange] := by simp
  have herase : [nextRange, tableRange].erase tableRange = [nextRange] := by decide
  have hsep : (MapCall.unmap tableRange).Separate 1 upperMap emptyRoot
      ⟨s₂, [nextRange, tableRange]⟩ := by
    intro p hp
    refine ⟨fun q hq htouch => ?_, not_direct_emptyRoot _⟩
    rw [herase, List.mem_singleton] at hq
    subst hq
    have hp₁ := tableRange_visits.mp hp
    have hp₂ := nextRange_touches htouch
    omega
  have hinv := ((NestInv.initial kernelTables_emptyRoot).step hfirst).step hsecond
  obtain ⟨s₃, hrun₃, -⟩ := hinv.unmap hlive hsep
  have hthird : SeparateStep 1 upperMap emptyRoot ⟨s₂, [nextRange, tableRange]⟩
      ⟨s₃, [nextRange]⟩ := by
    refine ⟨.unmap tableRange, hlive, hsep, ?_⟩
    rw [MapCall.run, hrun₃, ← herase]
    rfl
  exact ⟨v₁, s₁, v₂, s₂, s₃, hrun₁, hrun₂, hrun₃,
    acpi_mappings_nest kernelTables_emptyRoot (.tail (.tail (.single hfirst) hsecond) hthird)⟩

/-- Mapping a table of the firmware and unmapping it again takes a page of the direct map away. -/
theorem acpi_unmap_clears_direct_map : ∃ s₀ σ,
    vmmMap emptyRoot 1 0xe0000 (0xe0 * 4096 + upperMap.offset) (VMM_PRESENT ||| VMM_RW) = .ok s₀ ∧
    KernelTables s₀ 1 ∧ ReflTransGen (MapStep 1 upperMap) ⟨s₀, []⟩ σ ∧
    ¬Nested 1 upperMap s₀ σ := by
  have hsix : emptyRoot.pmm.clearBits.card = 6 := by decide
  have hpage : upperMap.Page 0xe0 := by
    unfold DirectMap.Page
    decide
  have hpost := kernelTables_emptyRoot.vmmMap_post hpage.kernelHalf 0xe0000 (VMM_PRESENT ||| VMM_RW)
  rw [hsix] at hpost
  obtain ⟨s₀, hmap, hg, -, hself, hcard⟩ := hpost.returns_of_not fun _ he =>
    absurd he.2 (by decide)
  have hshown₀ : shown upperMap 1 s₀.mem 0xe0 = some 0xe0 := by
    rw [if_pos (by decide)] at hself
    exact hself
  have hdirect : Direct 1 upperMap s₀.mem (0xe0 * 4096) := ⟨hpage, physical_iff.mpr hshown₀⟩
  obtain ⟨v, s₁, hrun₁, htables, hshown, -⟩ := uacpiKernelMap_returns hg.tables tableRange
    tableRange_window.1 (by decide) (by omega)
  obtain ⟨s₂, hrun₂, -, hcleared⟩ :=
    uacpiKernelUnmap_ok (r := tableRange) htables tableRange_window.1 fun p hp =>
      ⟨p, by rw [hshown p (tableRange_visits.mp hp ▸ hpage), if_pos hp]⟩
  have hfirst : MapStep 1 upperMap ⟨s₀, []⟩ ⟨s₁, [tableRange]⟩ := by
    refine ⟨.map tableRange, ⟨by decide, by decide⟩, ?_⟩
    rw [MapCall.run, hrun₁]
    rfl
  have hsecond : MapStep 1 upperMap ⟨s₁, [tableRange]⟩ ⟨s₂, []⟩ := by
    refine ⟨.unmap tableRange, List.mem_singleton_self _, ?_⟩
    rw [MapCall.run, hrun₂]
    rfl
  refine ⟨s₀, ⟨s₂, []⟩, hmap, hg.tables, .tail (.single hfirst) hsecond, fun hnested => ?_⟩
  have hlost := physical_iff.mp (hnested.direct _ hdirect).2
  rw [hcleared _ hpage, if_pos (tableRange_visits.mpr rfl)] at hlost
  cases hlost

end GarnOS.Uacpi
