import GarnOS.Mem.PmmInit
import GarnOS.Paging.Ranges

/-! `vmm_init`: the kernel image, the first 4 GiB and all memory above them, each of the latter two
once at its physical address and once behind the HHDM offset. The loops come down to one list of
`vmm_map` calls, and a page holds what some call for it has stored. -/
namespace GarnOS
open ByteMemory Outcome Finset PageTableEntry Walks List

def archMmInit (s : Machine) : Except Fault (ℕ × Machine) := do
  let (phys, s) ← pmmAllocate s 1
  return (phys / 4096, { s with mem := memset s.mem phys 0 PAGE_SIZE })

section Loops
variable (kernelPT hhdm physBase virtBase : ℕ)

/-- The loop `for(i = 0; i <= ALIGN_UP(entry.length, PAGE_SIZE); i+=PAGE_SIZE)`. It goes one page
too far, and `i` wraps if that is the last page of all. -/
def mapKernelEntry (s : Machine) (entry : MemmapEntry) : Except Fault Machine :=
  if entry.type ≠ .kernelAndModules then .ok s
  else if 2 ^ 64 ≤ ALIGN_UP entry.length PAGE_SIZE + PAGE_SIZE then .error .diverges
  else forRange (fun i s => vmmMap s kernelPT ((i * PAGE_SIZE + physBase) % 2 ^ 64)
    ((i * PAGE_SIZE + virtBase) % 2 ^ 64) (VMM_PRESENT ||| VMM_RW))
    0 (ALIGN_UP entry.length PAGE_SIZE / PAGE_SIZE + 1) s

/-- The two calls for a page of memory. Where the source writes `0x3` it means the same flags. -/
def mapDirect (i : ℕ) (s : Machine) : Except Fault Machine := do
  let s ← vmmMap s kernelPT i i (VMM_PRESENT ||| VMM_RW)
  vmmMap s kernelPT i ((i + hhdm) % 2 ^ 64) (VMM_PRESENT ||| VMM_RW)

/-- The loop `for(i = 0x1000; i <= 0xffffffff; i+=PAGE_SIZE)`. -/
def mapFirst4GiB (s : Machine) : Except Fault Machine :=
  forRange (fun k => mapDirect kernelPT hhdm (k * PAGE_SIZE)) 1 (2 ^ 20 - 1) s

def mapMemoryEntry (s : Machine) (currentEntry : MemmapEntry) : Except Fault Machine :=
  if currentEntry.base + currentEntry.length ≤ 0xffffffff then .ok s
  else forRange (fun j => mapDirect kernelPT hhdm ((j * PAGE_SIZE + currentEntry.base) % 2 ^ 64))
    0 (ALIGN_UP currentEntry.length PAGE_SIZE / PAGE_SIZE) s

end Loops

/-- The new root and the machine. Loading the root into `cr3` is left out. -/
def vmmInit (s : Machine) (map : List MemmapEntry) (hhdm physBase virtBase : ℕ) :
    Except Fault (ℕ × Machine) := do
  let (kernelPT, s) ← archMmInit s
  let s ← map.foldlM (mapKernelEntry kernelPT physBase virtBase) s
  let s ← mapFirst4GiB kernelPT hhdm s
  let s ← map.foldlM (mapMemoryEntry kernelPT hhdm) s
  return (kernelPT, s)

section Calls
variable (hhdm physBase virtBase : ℕ) (map : List MemmapEntry)

/-- The physical and virtual addresses of the calls for an entry of the kernel image. -/
def kernelCalls (entry : MemmapEntry) : List (ℕ × ℕ) :=
  if entry.type ≠ .kernelAndModules then []
  else (range' 0 (ALIGN_UP entry.length PAGE_SIZE / PAGE_SIZE + 1)).flatMap fun i =>
    [((i * PAGE_SIZE + physBase) % 2 ^ 64, (i * PAGE_SIZE + virtBase) % 2 ^ 64)]

def directCalls (i : ℕ) : List (ℕ × ℕ) := [(i, i), (i, (i + hhdm) % 2 ^ 64)]

def lowCalls : List (ℕ × ℕ) :=
  (range' 1 (2 ^ 20 - 1)).flatMap fun k => directCalls hhdm (k * PAGE_SIZE)

def memoryCalls (currentEntry : MemmapEntry) : List (ℕ × ℕ) :=
  if currentEntry.base + currentEntry.length ≤ 0xffffffff then []
  else (range' 0 (ALIGN_UP currentEntry.length PAGE_SIZE / PAGE_SIZE)).flatMap fun j =>
    directCalls hhdm ((j * PAGE_SIZE + currentEntry.base) % 2 ^ 64)

def initCalls : List (ℕ × ℕ) :=
  map.flatMap (kernelCalls physBase virtBase) ++ lowCalls hhdm ++ map.flatMap (memoryCalls hhdm)

/-- A list of `vmm_map` calls with the flags of `vmm_init`. -/
def mapCalls (kernelPT : ℕ) (calls : List (ℕ × ℕ)) (s : Machine) : Except Fault Machine :=
  calls.foldlM (fun s c => vmmMap s kernelPT c.1 c.2 (VMM_PRESENT ||| VMM_RW)) s

variable {hhdm physBase virtBase map}

theorem mapDirect_eq (kernelPT i : ℕ) (s : Machine) :
    mapDirect kernelPT hhdm i s = mapCalls kernelPT (directCalls hhdm i) s := by
  simp [mapDirect, mapCalls, directCalls]

theorem vmmInit_eq (h : ∀ e ∈ map, e.type = .kernelAndModules →
      ALIGN_UP e.length PAGE_SIZE + PAGE_SIZE < 2 ^ 64) (s : Machine) :
    vmmInit s map hhdm physBase virtBase = do
      let (kernelPT, s) ← archMmInit s
      let s ← mapCalls kernelPT (initCalls hhdm physBase virtBase map) s
      return (kernelPT, s) := by
  have hkernel : ∀ kernelPT, ∀ e ∈ map, ∀ u, mapKernelEntry kernelPT physBase virtBase u e =
      mapCalls kernelPT (kernelCalls physBase virtBase e) u := by
    intro kernelPT e he u
    unfold mapKernelEntry kernelCalls
    by_cases htype : e.type = .kernelAndModules
    · rw [if_neg (not_not.mpr htype), if_neg (Nat.not_le.mpr (h e he htype)),
        if_neg (not_not.mpr htype)]
      refine forRange_eq_foldlM (fun i u => ?_) _ _ _
      simp
    · rw [if_pos htype, if_pos htype]
      rfl
  have hmemory : ∀ kernelPT, ∀ e ∈ map, ∀ u, mapMemoryEntry kernelPT hhdm u e =
      mapCalls kernelPT (memoryCalls hhdm e) u := by
    intro kernelPT e _ u
    unfold mapMemoryEntry memoryCalls mapCalls
    split
    · rfl
    · refine forRange_eq_foldlM (fun j u => ?_) _ _ _
      exact mapDirect_eq kernelPT _ u
  have hlow : ∀ kernelPT u, mapFirst4GiB kernelPT hhdm u = mapCalls kernelPT (lowCalls hhdm) u := by
    intro kernelPT u
    refine forRange_eq_foldlM (fun k u => ?_) _ _ _
    exact mapDirect_eq kernelPT _ u
  refine congrArg _ (funext fun r => ?_)
  obtain ⟨kernelPT, u⟩ := r
  dsimp only
  rw [initCalls, mapCalls, foldlM_append, foldlM_append,
    foldlM_flatMap (hkernel kernelPT)]
  simp only [foldlM_flatMap (hmemory kernelPT), hlow kernelPT, bind_assoc]
  rfl

end Calls

/-- The tables on the way to the pages of the calls, the root among them. -/
def tablePaths (calls : List (ℕ × ℕ)) : Finset (List ℕ) :=
  calls.toFinset.biUnion fun c => (tablePath c.2).inits.toFinset

/-- The pages of the calls are mapped, each as one of the calls for it asks, and the frames that were
taken are tables on the way to them. -/
structure CallsMapped (s : Machine) (pt : ℕ) (calls : List (ℕ × ℕ)) (s' : Machine) : Prop where
  tree : PageTree s' pt
  grown : ∃ A : Finset ℕ, TreeGrown allPaths pt s A True s' ∧
    ∀ f ∈ A, ∃ q ∈ tablePaths calls, follow (child s'.mem) pt q = some f
  pages : ∀ w, (∃ c ∈ calls, pageNumber c.2 = pageNumber w) →
    ∃ c ∈ calls, pageNumber c.2 = pageNumber w ∧
      ∃ e, pageEntry s'.mem pt w = mappedEntry c.1 (VMM_PRESENT ||| VMM_RW) e

section Mapping
variable {s s' : Machine} {pt : ℕ} {calls : List (ℕ × ℕ)} {q : List ℕ}

theorem mem_tablePaths : q ∈ tablePaths calls ↔ ∃ c ∈ calls, q <+: tablePath c.2 := by
  simp [tablePaths]

theorem allPaths_of_mem_tablePaths (h : q ∈ tablePaths calls) : allPaths.Has q ∧ q.length ≤ 3 := by
  obtain ⟨c, -, hq⟩ := mem_tablePaths.mp h
  refine ⟨fun j hj => ?_, hq.length_le⟩
  exact allPaths.init (allPaths_pagePath c.2) j (hq.subset hj)

theorem CallsMapped.card_le (h : CallsMapped s pt calls s') :
    s.pmm.clearBits.card ≤ s'.pmm.clearBits.card + (tablePaths calls).card := by
  obtain ⟨A, hgrown, hhung⟩ := h.grown
  have hsub : A ⊆ (tablePaths calls).image fun q => (follow (child s'.mem) pt q).getD 0 := by
    intro f hf
    obtain ⟨q, hq, hfollow⟩ := hhung f hf
    exact mem_image.mpr ⟨q, hq, by rw [hfollow, Option.getD_some]⟩
  have hcard := (card_le_card hsub).trans card_image_le
  have hclear := hgrown.acq.card_clearBits
  omega

theorem CallsMapped.concat {u : Machine} {c : ℕ × ℕ} {A : Finset ℕ} (h : CallsMapped s pt calls u)
    (h' : PageTree s' pt) (hgrown : TreeGrown allPaths pt u A True s')
    (hhung : ∀ f ∈ A, ∃ q, q <+: tablePath c.2 ∧ follow (child s'.mem) pt q = some f)
    (hpages : ∀ w, pageEntry s'.mem pt w = if pageNumber w = pageNumber c.2 then
      mappedEntry c.1 (VMM_PRESENT ||| VMM_RW) (pageEntry u.mem pt w) else pageEntry u.mem pt w) :
    CallsMapped s pt (calls ++ [c]) s' := by
  obtain ⟨B, hbefore, hhung'⟩ := h.grown
  refine ⟨h', ⟨B ∪ A, hbefore.trans hgrown id, fun f hf => ?_⟩, fun w hw => ?_⟩
  · obtain hf | hf := mem_union.mp hf
    · obtain ⟨q, hq, hfollow⟩ := hhung' f hf
      obtain ⟨hpath, hlen⟩ := allPaths_of_mem_tablePaths hq
      obtain ⟨c', hc', hq⟩ := mem_tablePaths.mp hq
      exact ⟨q, mem_tablePaths.mpr ⟨c', mem_append_left _ hc', hq⟩,
        hgrown.follow_eq hpath hlen hfollow⟩
    · obtain ⟨q, hq, hfollow⟩ := hhung f hf
      exact ⟨q, mem_tablePaths.mpr ⟨c, by simp, hq⟩, hfollow⟩
  · by_cases hlast : pageNumber w = pageNumber c.2
    · exact ⟨c, by simp, hlast.symm, _, (hpages w).trans (if_pos hlast)⟩
    · obtain ⟨c', hc', hnumber⟩ := hw
      obtain hc' | hc' := mem_append.mp hc'
      · obtain ⟨c'', hc'', hnumber', e, he⟩ := h.pages w ⟨c', hc', hnumber⟩
        exact ⟨c'', mem_append_left _ hc'', hnumber', e, by rw [hpages w, if_neg hlast, he]⟩
      · rw [List.mem_singleton.mp hc'] at hnumber
        exact absurd hnumber.symm hlast

theorem mapCalls_post (h : PageTree s pt) (calls : List (ℕ × ℕ)) :
    Post (mapCalls pt calls s) (CallsMapped s pt calls)
      (fun e => e = outOfMemory ∧ s.pmm.clearBits.card < (tablePaths calls).card + 3) := by
  induction calls using reverseRecOn with
  | nil => exact post_ok.mpr ⟨h, ⟨∅, TreeGrown.refl h.toTableTree True, by simp⟩, by simp⟩
  | append_singleton calls c ih =>
    have hmono : (tablePaths calls).card ≤ (tablePaths (calls ++ [c])).card := by
      refine card_le_card fun q hq => ?_
      obtain ⟨c', hc', hq⟩ := mem_tablePaths.mp hq
      exact mem_tablePaths.mpr ⟨c', mem_append_left _ hc', hq⟩
    rw [mapCalls, foldlM_append, ← mapCalls]
    apply (ih.mono_error fun e he => ⟨he.1, by omega⟩).bind
    intro u hu
    rw [foldlM_cons]
    simp only [foldlM_nil, bind_pure]
    refine (hu.tree.map_post c.1 c.2 _).mono ?_ fun e he => ⟨he.1, ?_⟩
    · rintro s' ⟨h', ⟨A, -, hgrown, hhung⟩, hpages⟩
      exact hu.concat h' hgrown hhung hpages
    · have hcard := hu.card_le
      omega

theorem card_tablePaths_le {X Y Z : Finset ℕ}
    (h : ∀ c ∈ calls, ∃ x ∈ X, ∃ y ∈ Y, ∃ z ∈ Z, tablePath c.2 = [x, y, z]) :
    (tablePaths calls).card ≤ (X ×ˢ Y ×ˢ Z).card * 4 := by
  have hsub : tablePaths calls ⊆
      (X ×ˢ Y ×ˢ Z).biUnion fun p => [p.1, p.2.1, p.2.2].inits.toFinset := by
    intro q hq
    obtain ⟨c, hc, hq⟩ := mem_tablePaths.mp hq
    obtain ⟨x, hx, y, hy, z, hz, hpath⟩ := h c hc
    rw [hpath, ← mem_inits] at hq
    exact mem_biUnion.mpr ⟨(x, y, z), by simp [hx, hy, hz], mem_toFinset.mpr hq⟩
  exact (card_le_card hsub).trans
    (card_biUnion_le_card_mul _ _ 4 fun p _ => toFinset_card_le _)

theorem archMmInit_post (haddr : s.pmm.Addressable) :
    Post (archMmInit s)
      (fun r => PageTree r.2 r.1 ∧ s.pmm.clearBits.card ≤ r.2.pmm.clearBits.card + 1)
      (fun e => e = outOfMemory ∧ s.pmm.clearBits.card = 0) := by
  apply (pmmAllocate_one_post s).bind
  rintro ⟨base, u⟩ ⟨f, rfl, -, -, hacq, -⟩
  dsimp only
  rw [Nat.mul_div_cancel f (by decide), PAGE_SIZE, memset_eq_fill]
  have hcard := hacq.card_clearBits
  rw [card_singleton] at hcard
  refine post_pure.mpr ⟨?_, hcard.ge⟩
  have hempty : ∀ i < 512, readEntry (fill u.mem (f * 4096) 4096 0) f i = PageTableEntry.empty :=
    fun i hi => readEntry_fill_zero u.mem hi
  exact (pageTree_of_empty (s := { u with mem := fill u.mem (f * 4096) 4096 0 })
    (hacq.addressable haddr) (hacq.taken (Finset.mem_singleton_self f)) hempty).1

end Mapping

/-- The identity range: from address 0 to the end of the memory that `vmm_init` maps, and to 4 GiB
at least. -/
def InIdentity (map : List MemmapEntry) (a : ℕ) : Prop :=
  a < 2 ^ 32 ∨ ∃ e ∈ map, 0xffffffff < e.base + e.length ∧ a < e.base + ALIGN_UP e.length PAGE_SIZE

/-- The range of the kernel image, with the page behind it. -/
def InKernel (map : List MemmapEntry) (virtBase a : ℕ) : Prop :=
  ∃ e ∈ map, e.type = .kernelAndModules ∧
    ∃ x < ALIGN_UP e.length PAGE_SIZE + PAGE_SIZE, a = virtBase + x

/-- No two of the identity range, the HHDM range and the range of the kernel image have a page number
in common. -/
structure RangesApart (map : List MemmapEntry) (hhdm virtBase : ℕ) : Prop where
  identity_hhdm : ∀ a b, InIdentity map a → InIdentity map b →
    pageNumber a ≠ pageNumber (b + hhdm)
  identity_kernel : ∀ a b, InIdentity map a → InKernel map virtBase b → pageNumber a ≠ pageNumber b
  hhdm_kernel : ∀ a b, InIdentity map a → InKernel map virtBase b →
    pageNumber (a + hhdm) ≠ pageNumber b

section Ranges
variable {map : List MemmapEntry} {hhdm physBase virtBase a f : ℕ}

theorem RangesApart.identity_lt (h : RangesApart map hhdm virtBase) (ha : InIdentity map a) :
    a < 2 ^ 48 := by
  by_contra hge
  have hbelow : InIdentity map (hhdm % 2 ^ 48) := by
    obtain hlow | ⟨e, he, hhigh, hend⟩ := ha
    · omega
    · exact .inr ⟨e, he, hhigh, by omega⟩
  refine h.identity_hhdm _ 0 hbelow (.inl (by decide)) ?_
  unfold pageNumber
  omega

variable {e : MemmapEntry} {c : ℕ × ℕ}

theorem RangesApart.kernel_lt (h : RangesApart map hhdm virtBase) (he : e ∈ map)
    (htype : e.type = .kernelAndModules) : ALIGN_UP e.length PAGE_SIZE + PAGE_SIZE < 2 ^ 64 := by
  by_contra hge
  refine h.identity_kernel 0 (virtBase + (2 ^ 48 - virtBase % 2 ^ 48)) (.inl (by decide))
    ⟨e, he, htype, _, by omega, rfl⟩ ?_
  unfold pageNumber
  omega

theorem mem_directCalls : c ∈ directCalls hhdm a ↔ c = (a, a) ∨ c = (a, (a + hhdm) % 2 ^ 64) := by
  simp [directCalls]

theorem initCalls_cases (h : c ∈ initCalls hhdm physBase virtBase map) :
    (∃ b, InKernel map virtBase b ∧ pageNumber c.2 = pageNumber b) ∨
      ∃ a, InIdentity map a ∧ c ∈ directCalls hhdm a := by
  simp only [initCalls, mem_append, mem_flatMap] at h
  obtain (⟨e, he, hc⟩ | hc) | ⟨e, he, hc⟩ := h
  · unfold kernelCalls at hc
    split at hc
    · exact absurd hc not_mem_nil
    · next htype =>
      obtain ⟨i, hi, hc⟩ := mem_flatMap.mp hc
      rw [List.mem_singleton] at hc
      rw [mem_range'_1] at hi
      refine .inl ⟨virtBase + i * PAGE_SIZE, ⟨e, he, not_not.mp htype, _, ?_, rfl⟩, ?_⟩
      · unfold PAGE_SIZE at hi ⊢
        omega
      · rw [hc, pageNumber_mod, Nat.add_comm]
  · obtain ⟨k, hk, hc⟩ := mem_flatMap.mp hc
    rw [mem_range'_1] at hk
    refine .inr ⟨_, .inl ?_, hc⟩
    unfold PAGE_SIZE
    omega
  · unfold memoryCalls at hc
    split at hc
    · exact absurd hc not_mem_nil
    · next hhigh =>
      obtain ⟨j, hj, hc⟩ := mem_flatMap.mp hc
      rw [mem_range'_1] at hj
      refine .inr ⟨_, .inr ⟨e, he, by omega, (Nat.mod_le _ _).trans_lt ?_⟩, hc⟩
      unfold PAGE_SIZE at hj ⊢
      omega

theorem directCalls_of_usable (he : e ∈ map) (hbase : e.base % 4096 = 0)
    (hlength : e.length % 4096 = 0) (hf : f % 4096 = 0) (hlow : 0x1000 ≤ f) (hstart : e.base ≤ f)
    (hend : f < e.base + e.length) :
    InIdentity map f ∧ ∀ c ∈ directCalls hhdm f, c ∈ initCalls hhdm physBase virtBase map := by
  have halign : ALIGN_UP e.length PAGE_SIZE = e.length := if_pos hlength
  have hlt := e.end_lt
  by_cases hhigh : e.base + e.length ≤ 0xffffffff
  · refine ⟨.inl (by omega), fun c hc => ?_⟩
    refine mem_append_left _ (mem_append_right _ (mem_flatMap.mpr ⟨f / 4096, ?_, ?_⟩))
    · rw [mem_range'_1]
      omega
    · rwa [PAGE_SIZE, Nat.div_mul_cancel (Nat.dvd_of_mod_eq_zero hf)]
  · refine ⟨.inr ⟨e, he, by omega, by omega⟩, fun c hc => ?_⟩
    refine mem_append_right _ (mem_flatMap.mpr ⟨e, he, ?_⟩)
    rw [memoryCalls, if_neg hhigh, halign]
    refine mem_flatMap.mpr ⟨(f - e.base) / 4096, ?_, ?_⟩
    · rw [mem_range'_1, PAGE_SIZE]
      omega
    · rwa [PAGE_SIZE, show ((f - e.base) / 4096 * 4096 + e.base) % 2 ^ 64 = f by omega]

theorem RangesApart.call_eq (h : RangesApart map hhdm virtBase) (hhhdm : hhdm % 4096 = 0)
    (hf : InIdentity map f) (hc : c ∈ initCalls hhdm physBase virtBase map)
    (hnumber : pageNumber c.2 = pageNumber (f + hhdm)) : c.1 / 4096 = f / 4096 := by
  obtain ⟨b, hb, hkernel⟩ | ⟨a, ha, hdirect⟩ := initCalls_cases hc
  · exact absurd (hnumber.symm.trans hkernel) (h.hhdm_kernel f b hf hb)
  · obtain rfl | rfl := mem_directCalls.mp hdirect
    · exact absurd hnumber (h.identity_hhdm a f ha hf)
    · have ha' := h.identity_lt ha
      have hf' := h.identity_lt hf
      rw [pageNumber_mod] at hnumber
      unfold pageNumber at hnumber
      omega

end Ranges

/-- After `vmm_init` every page of usable memory, except for page 0, is found at its physical address
behind the HHDM offset. -/
theorem vmm_init_direct_map {s : Machine} {map : List MemmapEntry}
    (hpmm : s.pmm.bitmap.length = bitmapBytes map)
    (haligned : ∀ e ∈ map, e.type = .usable → e.base % 4096 = 0 ∧ e.length % 4096 = 0)
    (hbelow : ∀ e ∈ map, e.type = .usable → e.base + e.length ≤ 2 ^ 47)
    {hhdm virtBase : ℕ} (hhhdm : hhdm % 4096 = 0) (hapart : RangesApart map hhdm virtBase)
    (physBase : ℕ) :
    Post (vmmInit s map hhdm physBase virtBase)
      (fun r => ∀ e ∈ map, e.type = .usable → ∀ f, f % 4096 = 0 → 0x1000 ≤ f → e.base ≤ f →
        f < e.base + e.length → vmmVirtToPhys r.2.mem r.1 ((f + hhdm) % 2 ^ 64) = f)
      (fun e => e = outOfMemory ∧ s.pmm.clearBits.card <
        (tablePaths (initCalls hhdm physBase virtBase map)).card + 4) := by
  have haddr : s.pmm.Addressable := by
    rw [Pmm.Addressable, hpmm, bitmapBytes]
    have hhighest : memmapGetHighestUsableAddress map ≤ 2 ^ 47 := by
      obtain hzero | ⟨e, he, htype, hlast⟩ := highestUsable_cases map
      · omega
      · exact hlast ▸ hbelow e he htype
    unfold ALIGN_UP PAGE_SIZE
    split <;> omega
  rw [vmmInit_eq fun e he htype => hapart.kernel_lt he htype]
  apply ((archMmInit_post haddr).mono_error fun e he => ⟨he.1, by omega⟩).bind
  rintro ⟨kernelPT, u⟩ ⟨htree, hcard⟩
  apply ((mapCalls_post htree (initCalls hhdm physBase virtBase map)).mono_error
    fun e he => ⟨he.1, by omega⟩).bind
  intro s' hs'
  refine post_pure.mpr fun e he htype f hf hlow hstart hend => ?_
  obtain ⟨hbase, hlength⟩ := haligned e he htype
  obtain ⟨hidentity, hcalls⟩ := directCalls_of_usable he hbase hlength hf hlow hstart hend
  have hcall := hcalls (f, (f + hhdm) % 2 ^ 64) (mem_directCalls.mpr (.inr rfl))
  obtain ⟨c, hc, hnumber, e', hentry⟩ := hs'.pages (f + hhdm) ⟨_, hcall, pageNumber_mod _⟩
  have hframe := hapart.call_eq hhhdm hidentity hc hnumber
  have hlt := hbelow e he htype
  change archMmVirtToPhys _ _ _ = f
  rw [hs'.tree.virtToPhys, pageEntry_congr (pageNumber_mod _), hentry, phys_mappedEntry (by decide)]
  omega

/-- 128 MiB of memory, and a kernel of three pages behind them. -/
def bootMap : List MemmapEntry :=
  [⟨0x1000, 0x7fff000, .usable, by decide⟩, ⟨0x8000000, 0x3000, .kernelAndModules, by decide⟩]

theorem length_replicate_lt {n : ℕ} (h : n < 2 ^ 49) :
    (replicate n (0 : BitVec 8)).length < 2 ^ 49 := by
  rwa [length_replicate]

/-- An allocator that has not handed out anything yet. -/
def freshPmm (n : ℕ) (h : n < 2 ^ 49) : Pmm :=
  ⟨replicate n 0, 0, BitVec.ofNat 64 (8 * n), length_replicate_lt h⟩

theorem card_clearBits_freshPmm (n : ℕ) (h : n < 2 ^ 49) :
    (freshPmm n h).clearBits.card = 8 * n := by
  have hpages : (freshPmm n h).pages = 8 * n := by rw [Pmm.pages, freshPmm, length_replicate]
  have htest : ∀ q, (freshPmm n h).test q = false := by
    intro q
    have hbyte : (freshPmm n h).byte (q / 8) = 0 := by
      rw [Pmm.byte, freshPmm, getD_eq_getElem?_getD, getElem?_replicate]
      split <;> rfl
    rw [Pmm.test, hbyte]
    simp
  rw [Pmm.clearBits, filter_true_of_mem fun q _ => htest q, card_range, hpages]

def bootMachine : Machine := ⟨fun _ => 0, freshPmm 4096 (by decide)⟩

theorem identity_bootMap {a : ℕ} (h : InIdentity bootMap a) : a < 2 ^ 32 := by
  obtain hlow | ⟨e, he, hhigh, -⟩ := h
  · exact hlow
  · simp only [bootMap, List.mem_cons, not_mem_nil, or_false] at he
    obtain rfl | rfl := he <;> exact absurd hhigh (by decide)

theorem kernel_bootMap {virtBase a : ℕ} (h : InKernel bootMap virtBase a) :
    ∃ x < 0x4000, a = virtBase + x := by
  obtain ⟨e, he, htype, x, hx, ha⟩ := h
  simp only [bootMap, List.mem_cons, not_mem_nil, or_false] at he
  obtain rfl | rfl := he
  · cases htype
  · exact ⟨x, hx, ha⟩

theorem rangesApart_bootMap : RangesApart bootMap 0xffff800000000000 0xffffffff80000000 := by
  constructor
  all_goals
    intro a b ha hb
    have ha := identity_bootMap ha
    unfold pageNumber
  · have hb := identity_bootMap hb
    omega
  all_goals
    obtain ⟨x, hx, rfl⟩ := kernel_bootMap hb
    omega

theorem card_tablePaths_bootMap : (tablePaths
    (initCalls 0xffff800000000000 0x8000000 0xffffffff80000000 bootMap)).card ≤ 30720 := by
  refine (card_tablePaths_le (X := {0, 256, 511}) (Y := {0, 1, 2, 3, 510}) (Z := range 512) ?_).trans
    (by rw [card_product, card_product, card_range]; decide)
  intro c hc
  have hpath : ∃ v, pageNumber c.2 = pageNumber v ∧ (v < 2 ^ 32 ∨
      (0xffff800000000000 ≤ v ∧ v < 0xffff800000000000 + 2 ^ 32) ∨
      0xffffffff80000000 ≤ v ∧ v < 0xffffffff80000000 + 0x4000) := by
    obtain ⟨b, hb, hnumber⟩ | ⟨a, ha, hdirect⟩ := initCalls_cases hc
    · obtain ⟨x, hx, rfl⟩ := kernel_bootMap hb
      exact ⟨_, hnumber, by omega⟩
    · have ha := identity_bootMap ha
      obtain rfl | rfl := mem_directCalls.mp hdirect
      · exact ⟨a, rfl, .inl ha⟩
      · exact ⟨a + 0xffff800000000000, pageNumber_mod _, by omega⟩
  obtain ⟨v, hnumber, hv⟩ := hpath
  have htables : tablePath c.2 = tablePath v := congrArg (take 3) (pagePath_eq_iff.mpr hnumber)
  rw [htables]
  refine ⟨v / 4096 / 512 / 512 / 512 % 512, ?_, v / 4096 / 512 / 512 % 512, ?_,
    v / 4096 / 512 % 512, ?_, rfl⟩
  all_goals
    simp only [mem_insert, Finset.mem_singleton, Finset.mem_range]
    omega

theorem vmm_init_direct_map_boot :
    (bootMachine.pmm.bitmap.length = bitmapBytes bootMap ∧
      (∀ e ∈ bootMap, e.type = .usable → e.base % 4096 = 0 ∧ e.length % 4096 = 0) ∧
      (∀ e ∈ bootMap, e.type = .usable → e.base + e.length ≤ 2 ^ 47) ∧
      0xffff800000000000 % 4096 = 0 ∧
      RangesApart bootMap 0xffff800000000000 0xffffffff80000000) ∧
    ∃ r, vmmInit bootMachine bootMap 0xffff800000000000 0x8000000 0xffffffff80000000 = .ok r ∧
      ∀ f, f % 4096 = 0 → 0x1000 ≤ f → f < 0x8000000 →
        vmmVirtToPhys r.2.mem r.1 ((f + 0xffff800000000000) % 2 ^ 64) = f := by
  have hpmm : bootMachine.pmm.bitmap.length = bitmapBytes bootMap := length_replicate
  have haligned : ∀ e ∈ bootMap, e.type = .usable → e.base % 4096 = 0 ∧ e.length % 4096 = 0 := by
    simp [bootMap]
  have hbelow : ∀ e ∈ bootMap, e.type = .usable → e.base + e.length ≤ 2 ^ 47 := by simp [bootMap]
  refine ⟨⟨hpmm, haligned, hbelow, by decide, rangesApart_bootMap⟩, ?_⟩
  have hpost := vmm_init_direct_map hpmm haligned hbelow (by decide) rangesApart_bootMap 0x8000000
  have hcard := card_tablePaths_bootMap
  have henough : bootMachine.pmm.clearBits.card = 8 * 4096 := card_clearBits_freshPmm 4096 (by decide)
  obtain ⟨r, hr, hall⟩ := hpost.returns_of_not fun e he => by
    omega
  refine ⟨r, hr, fun f hf hlow hend => ?_⟩
  exact hall ⟨0x1000, 0x7fff000, .usable, by decide⟩ (by simp [bootMap]) rfl f hf hlow hlow hend

end GarnOS
