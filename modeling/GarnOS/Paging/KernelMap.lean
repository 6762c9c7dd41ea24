import GarnOS.Paging.Tables

/-! Mapping and unmapping in the upper half of the kernel's page table. -/
namespace GarnOS
open ByteMemory Outcome Finset PageTableEntry Walks

/-- Indices of entries that start in the upper half of the root. -/
structure Upper (p : List ℕ) : Prop where
  bound : ∀ j ∈ p, j < 512
  head : ∀ i ∈ p.head?, 256 ≤ i

theorem Upper.init {p q : List ℕ} (h : Upper (p ++ q)) : Upper p := by
  refine ⟨fun j hj => h.bound j (List.mem_append_left _ hj), fun j hj => h.head j ?_⟩
  cases p with
  | nil => cases hj
  | cons a p => exact hj

def upperPaths : IndexPaths := ⟨Upper, Upper.init, Upper.bound⟩

/-- The tables of the upper half are allocated frames, and no two paths share one. -/
abbrev KernelTables (s : Machine) (k : ℕ) : Prop := TableTree upperPaths s k

/-- A frame in use that is not one of the tables below the root. -/
def Outside (s : Machine) (k x : ℕ) : Prop :=
  x ∈ s.pmm.setBits ∧
    ∀ p, Upper p → p.length ≤ 3 → p ≠ [] → follow (child s.mem) k p ≠ some x

/-- The upper half after tables were added to it. The root is written only under `R`. -/
structure TablesGrown (k : ℕ) (s : Machine) (R : Prop) (s' : Machine) : Prop where
  tables : KernelTables s' k
  length : s'.pmm.bitmap.length = s.pmm.bitmap.length
  bits : s.pmm.setBits ⊆ s'.pmm.setBits
  outside : ∀ x, Outside s k x → Outside s' k x
  kept : ∀ x, Outside s k x → (R → x ≠ k) → FrameEq s.mem s'.mem x

section Tables
variable {s s' u : Machine} {k t x : ℕ} {p q : List ℕ} {A : Finset ℕ} {R R' : Prop}

theorem TreeGrown.kernel (h : TreeGrown upperPaths k s A R s') : TablesGrown k s R s' where
  tables := h.tree
  length := h.acq.length
  bits := h.acq.keeps
  outside x hx := by
    refine ⟨h.acq.keeps hx.1, fun p hp hlen hne hfollow => ?_⟩
    obtain heq | ⟨-, t, ht, heq⟩ := h.tables p hp hlen
    · exact hx.2 p hp hlen hne (heq ▸ hfollow)
    · cases hfollow.symm.trans heq
      exact disjoint_left.mp h.acq.fresh hx.1 ht
  kept x hx hroot := by
    apply h.kept x hx.1
    rintro ⟨p, hp, hlen, hnil, hfollow⟩
    by_cases hp' : p = []
    · subst hp'
      exact hroot (hnil rfl) (Option.some.inj hfollow).symm
    · exact hx.2 p hp hlen hp' hfollow

theorem KernelTables.root (h : KernelTables s k) : Outside s k k := by
  have hnil : Upper ([] : List ℕ) := ⟨by simp, by simp⟩
  refine ⟨h.used [] k hnil (by simp) rfl, fun p hp hlen hne hfollow => ?_⟩
  exact hne (h.unique p [] k ⟨hp, hlen⟩ ⟨hnil, by simp⟩ hfollow rfl)

theorem KernelTables.elsewhere (h : KernelTables s k) (hacq : Acquired s A A s') :
    TablesGrown k s False s' ∧ ∀ x ∈ A, Outside s' k x := by
  obtain ⟨hgrown, hfollow, -⟩ := TableTree.elsewhere h hacq
  refine ⟨hgrown.kernel, fun x hx => ⟨hacq.taken hx, fun q hq hqlen _ hv => ?_⟩⟩
  rw [hfollow q hq hqlen] at hv
  exact disjoint_left.mp hacq.fresh (h.used q x hq hqlen hv) hx

def KernelHalf (v : ℕ) : Prop := 256 ≤ v / 4096 / 512 / 512 / 512 % 512

variable {v : ℕ}

theorem KernelHalf.upper (hv : KernelHalf v) : Upper (pagePath v) := by
  constructor
  · intro j hj
    simp only [pagePath, mmIndexer, List.mem_cons, List.not_mem_nil, or_false] at hj
    omega
  · intro j hj
    obtain rfl : v / 4096 / 512 / 512 / 512 % 512 = j := Option.some.inj hj
    exact hv

theorem KernelTables.vmmMap_post (h : KernelTables s k) (hv : KernelHalf v) (physAddr : ℕ)
    (flags : BitVec 32) : Post (vmmMap s k physAddr v flags)
      (fun s' => TablesGrown k s
          ((readEntry s.mem k (v / 4096 / 512 / 512 / 512 % 512)).present = false) s' ∧
        (∀ q, Upper q → q.length = 4 → q ≠ pagePath v →
          follow (child s'.mem) k q = follow (child s.mem) k q) ∧
        (follow (child s'.mem) k (pagePath v) = if flags &&& VMM_PRESENT != 0 then
          some (BitVec.ofNat 51 (physAddr / 4096)).toNat else none) ∧
        s.pmm.clearBits.card ≤ s'.pmm.clearBits.card + 3)
      (fun e => e = outOfMemory ∧ s.pmm.clearBits.card < 3) := by
  refine (TableTree.vmmMap_post h hv.upper physAddr flags).mono_ok ?_
  rintro s' ⟨A, hA, hgrown, -, hleaves, -⟩
  have hcard := hgrown.acq.card_clearBits
  refine ⟨hgrown.kernel, fun q hq hlen hne => ?_, ?_, by omega⟩
  · obtain ⟨q, j, rfl, hthree⟩ := exists_concat_of_length hlen
    rw [follow_eq_entryAt, follow_eq_entryAt, hleaves q j hq hthree, if_neg hne]
  · rw [pagePath_eq, follow_eq_entryAt, hleaves (tablePath v) (v / 4096 % 512) hv.upper rfl,
      if_pos (pagePath_eq v).symm]
    rfl

theorem KernelTables.unmapped (h : KernelTables s k) (hv : KernelHalf v)
    (ht : follow (child s.mem) k (tablePath v) = some t) :
    ∃ s', vmmUnmap s k v = .ok s' ∧ TablesGrown k s False s' ∧
      (∀ q, Upper q → q.length = 4 → q ≠ pagePath v →
        follow (child s'.mem) k q = follow (child s.mem) k q) ∧
      follow (child s'.mem) k (pagePath v) = none := by
  obtain ⟨m, hcall, hgrown, hentries⟩ := h.vmmUnmap_entries hv.upper ht
  refine ⟨_, hcall, hgrown.kernel, fun q hq hlen hne => ?_, ?_⟩
  · obtain ⟨q, j, rfl, hthree⟩ := exists_concat_of_length hlen
    rw [follow_eq_entryAt, follow_eq_entryAt, hentries q j hq hthree.le, if_neg hne]
  · rw [pagePath_eq, follow_eq_entryAt,
      hentries (tablePath v) (v / 4096 % 512) hv.upper (Nat.le_refl 3), if_pos (pagePath_eq v).symm]
    rfl

end Tables

def emptyRoot : Machine where
  mem := fun _ => 0
  pmm := ⟨[0xc0], 2, 6, by decide⟩

theorem child_emptyRoot (t i : ℕ) : child emptyRoot.mem t i = none := by
  have hentry : readEntry emptyRoot.mem t i = PageTableEntry.empty := readEntry_zero t i
  rw [child, hentry, empty_present]
  rfl

theorem follow_emptyRoot {t u : ℕ} {p : List ℕ} (h : follow (child emptyRoot.mem) t p = some u) :
    p = [] ∧ u = t := by
  cases p with
  | nil => exact ⟨rfl, (Option.some.inj h).symm⟩
  | cons i p =>
    rw [follow, child_emptyRoot] at h
    cases h

theorem kernelTables_emptyRoot : KernelTables emptyRoot 1 where
  addressable := by
    unfold Pmm.Addressable
    decide
  used p t _ _ h := by
    rw [(follow_emptyRoot h).2]
    decide
  unique p q t _ _ hp hq := (follow_emptyRoot hp).1.trans (follow_emptyRoot hq).1.symm

end GarnOS
