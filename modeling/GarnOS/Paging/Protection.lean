import GarnOS.Exec.Execve
import GarnOS.Paging.Mmap

/-! The protection of user pages. The callers compute it in 64 bits, but `vmm_map` and
`vaspace_create_area` take 32, so `VMM_EXEC_DISABLE` never reaches an entry. -/
namespace GarnOS
open ByteMemory Outcome Finset PageTableEntry

def PROT_EXEC : BitVec 32 := 0x04

structure Protects (prot : BitVec 32) (e : PageTableEntry) : Prop where
  user : e.userSupervisor = true
  write : e.readWrite = true ↔ prot &&& PROT_WRITE ≠ 0
  exec : e.nx = true ↔ prot &&& PROT_EXEC = 0

section Flags
variable {prot : BitVec 32} {physAddr : ℕ} {e : PageTableEntry}

theorem withFlags_nx (e : PageTableEntry) (flags : BitVec 32) : (withFlags e flags).nx = false := by
  have hlow : ∀ i < 32, VMM_EXEC_DISABLE.getLsbD i = false := by decide
  have hzero : flags.setWidth 64 &&& VMM_EXEC_DISABLE = 0 := by
    apply BitVec.eq_of_getLsbD_eq
    intro i _
    by_cases hi : i < 32
    · simp [hlow i hi]
    · simp [BitVec.getLsbD_of_ge flags i (Nat.not_lt.mp hi)]
  have hnx : (withFlags e flags).nx = (flags.setWidth 64 &&& VMM_EXEC_DISABLE != 0) := rfl
  rw [hnx, hzero]
  rfl

/-- The two other bits arrive, so a request is met if it asks for executable pages. -/
theorem protects_mappedEntry_iff :
    Protects prot (mappedEntry physAddr (mmapFlags prot) e) ↔ prot &&& PROT_EXEC ≠ 0 := by
  have hnx : (mappedEntry physAddr (mmapFlags prot) e).nx = false := withFlags_nx _ _
  have huser : (mappedEntry physAddr (mmapFlags prot) e).userSupervisor = true := by
    change (mmapFlags prot &&& VMM_USER != 0) = true
    unfold mmapFlags
    split <;> decide
  have hwrite : (mappedEntry physAddr (mmapFlags prot) e).readWrite = true ↔
      prot &&& PROT_WRITE ≠ 0 := by
    change (mmapFlags prot &&& VMM_RW != 0) = true ↔ _
    unfold mmapFlags
    split
    · next hset => exact iff_of_true (by decide) (bne_iff_ne.mp hset)
    · next hclear => exact iff_of_false (by decide) fun hne => hclear (bne_iff_ne.mpr hne)
  constructor
  · intro h hexec
    have hset := h.exec.mpr hexec
    rw [hnx] at hset
    cases hset
  · intro hexec
    refine ⟨huser, hwrite, ?_⟩
    rw [hnx]
    exact iff_of_false Bool.false_ne_true hexec

end Flags

/-- The entries of the pages that `sys_mmap` maps are as requested if and only if they may be
executed, and no page of a user stack is protected from execution. -/
theorem protection_reaches_entry_iff {s : Machine} {pt : ℕ} (h : PageTree s pt)
    (addr length : BitVec 64) (prot flags : BitVec 32) :
    Post (sysMmap s pt addr length prot flags)
      (fun r => ∀ a : ℕ, r.1 = a →
        ((∀ j < length.toNat / 4096, Protects prot (pageEntry r.2.mem pt (a + j * 4096))) ↔
          prot &&& PROT_EXEC ≠ 0))
      (fun e => e = outOfMemory ∧ s.pmm.clearBits.card < 4 * (length.toNat / 4096)) ∧
    Post (vaspaceCreateThreadUserStack s pt)
      (fun r => ∀ j < VMM_INIT_USER_STACK_SIZE / 4096,
        (pageEntry r.2.mem pt (VMM_USER_END - VMM_INIT_USER_STACK_SIZE + j * 4096)).nx = false)
      (fun e => e = outOfMemory ∧
        s.pmm.clearBits.card < 4 * (VMM_INIT_USER_STACK_SIZE / 4096)) := by
  constructor
  · constructor
    · rintro ⟨z, s'⟩ hcall a rfl
      obtain ⟨c, F, T, hfirst, hpos, -, hbacked⟩ := sysMmap_returned h hcall
      have hn := (run_below hfirst).1
      constructor
      · intro hall
        obtain ⟨e, he⟩ := hbacked.page_at (by omega) hpos
        have hfirstPage := hall 0 hpos
        rw [he] at hfirstPage
        exact protects_mappedEntry_iff.mp hfirstPage
      · intro hexec j hj
        obtain ⟨e, he⟩ := hbacked.page_at (by omega) hj
        rw [he]
        exact protects_mappedEntry_iff.mpr hexec
    · exact (sysMmap_result h addr length prot flags).of_error
  · apply (vaspaceCreateArea_backed h _ (show VMM_INIT_USER_STACK_SIZE < 2 ^ 64 by decide) _).bind
    rintro s' ⟨F, T, hbacked⟩
    apply post_ok.mpr
    intro j hj
    obtain ⟨e, he⟩ := hbacked.page_at (by decide) hj
    rw [he]
    exact withFlags_nx _ _

theorem protection_reaches_entry_executable : PageTree emptyRoot 1 ∧
    ∃ s', sysMmap emptyRoot 1 0 0x1000 PROT_EXEC (MAP_PRIVATE ||| MAP_ANONYMOUS) =
        .ok (0x1000, s') ∧
      Protects PROT_EXEC (pageEntry s'.mem 1 0x1000) := by
  obtain ⟨s', hcall⟩ := sysMmap_emptyRoot PROT_EXEC
  have hiff := (protection_reaches_entry_iff pageTree_emptyRoot 0 0x1000 PROT_EXEC
    (MAP_PRIVATE ||| MAP_ANONYMOUS)).1.of_ok hcall 0x1000 rfl
  exact ⟨pageTree_emptyRoot, s', hcall, hiff.mpr (by decide) 0 (by decide)⟩

/-- A page that was requested for data can be executed. -/
theorem sys_mmap_data_executable :
    ∃ s', sysMmap emptyRoot 1 0 0x1000 PROT_WRITE (MAP_PRIVATE ||| MAP_ANONYMOUS) =
        .ok (0x1000, s') ∧
      PROT_WRITE &&& PROT_EXEC = 0 ∧ (pageEntry s'.mem 1 0x1000).nx = false := by
  obtain ⟨s', hcall⟩ := sysMmap_emptyRoot PROT_WRITE
  refine ⟨s', hcall, by decide, ?_⟩
  obtain ⟨c, F, T, -, hpos, -, hbacked⟩ := sysMmap_returned (a := 0x1000) pageTree_emptyRoot hcall
  obtain ⟨e, he⟩ := hbacked.page_at (by decide) hpos
  have hentry : pageEntry s'.mem 1 0x1000 = mappedEntry (F 0 * 4096) (mmapFlags PROT_WRITE) e := he
  rw [hentry]
  exact withFlags_nx _ _

end GarnOS
