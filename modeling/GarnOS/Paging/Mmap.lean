import GarnOS.Paging.MmapSearch
import GarnOS.Paging.Ranges

/-! What `sys_mmap` does to the address space, and when it provides the length it was asked for. -/
namespace GarnOS
open ByteMemory Outcome Finset PageTableEntry Walks FirstFit

section Call
variable {s s' : Machine} {pt : ℕ} {addr length : BitVec 64} {flags : BitVec 32}

/-- A call fails and changes nothing, or it backs the lowest run of free pages. One that is not refused
fails only for lack of room. -/
theorem sysMmap_result (h : PageTree s pt) (addr length : BitVec 64) (prot flags : BitVec 32) :
    Post (sysMmap s pt addr length prot flags)
      (fun r => (r.1 < 0 ∧ r.2 = s ∧ (MmapAccepts addr length flags → r.1 = -ENOMEM ∧
          (length.toNat / 4096 = 0 ∨ NoRun (FreeFrom s.mem pt (mmapHint addr)) 0
            (mmapProbes addr flags) (length.toNat / 4096)))) ∨ ∃ c F T,
        First (FreeFrom s.mem pt (mmapHint addr)) 0 (mmapProbes addr flags) (length.toNat / 4096) c ∧
        0 < length.toNat / 4096 ∧ r.1 = (mmapHint addr + c * 4096 : ℕ) ∧
        Backed s pt (mmapHint addr + c * 4096) (length.toNat / 4096) (mmapFlags prot) F T r.2)
      (fun e => e = outOfMemory ∧ s.pmm.clearBits.card < 4 * (length.toNat / 4096)) := by
  rcases sysMmap_cases s pt addr length prot flags with
    ⟨z, hcall, hz, hreason⟩ | ⟨c, hpos, hfirst, hcall⟩
  · rw [hcall]
    exact post_ok.mpr (.inl ⟨hz, rfl, hreason⟩)
  · rw [hcall]
    apply (mapFreshPages_backed h _ _ _).bind
    rintro s' ⟨F, T, hbacked⟩
    exact post_ok.mpr (.inr ⟨c, F, T, hfirst, hpos, rfl, hbacked⟩)

theorem sysMmap_returned (h : PageTree s pt) {a : ℕ} {prot : BitVec 32}
    (hcall : sysMmap s pt addr length prot flags = .ok ((a : ℤ), s')) :
    ∃ c F T,
      First (FreeFrom s.mem pt (mmapHint addr)) 0 (mmapProbes addr flags) (length.toNat / 4096) c ∧
      0 < length.toNat / 4096 ∧ a = mmapHint addr + c * 4096 ∧
      Backed s pt a (length.toNat / 4096) (mmapFlags prot) F T s' := by
  rcases (sysMmap_result h addr length prot flags).of_ok hcall with
    ⟨hfail, -⟩ | ⟨c, F, T, hfirst, hpos, hbase, hbacked⟩
  · exact absurd hfail (Int.not_lt.mpr (Int.natCast_nonneg a))
  · obtain rfl : a = mmapHint addr + c * 4096 := Int.ofNat.inj hbase
    exact ⟨c, F, T, hfirst, hpos, rfl, hbacked⟩

theorem mmapFlags_present (prot : BitVec 32) : mmapFlags prot &&& VMM_PRESENT ≠ 0 := by
  unfold mmapFlags
  split <;> decide

theorem PageTree.isPageFree_congr (h : PageTree s pt) {v w : ℕ}
    (hnumber : pageNumber v = pageNumber w) :
    vmmIsPageFree s.mem pt v = vmmIsPageFree s.mem pt w := by
  rw [vmmIsPageFree, vmmIsPageFree, h.isPageFree, h.isPageFree, pageEntry_congr hnumber]

end Call

/-- `sys_mmap` does nothing if it fails. Otherwise it maps the lowest run of free pages to fresh
frames and leaves all other pages as they are. -/
theorem sys_mmap_keeps_mappings {s : Machine} {pt : ℕ} (h : PageTree s pt) (addr length : BitVec 64)
    (prot flags : BitVec 32) :
    Post (sysMmap s pt addr length prot flags)
      (fun r => (r.1 < 0 ∧ r.2 = s) ∨ ∃ (a : ℕ) (F : ℕ → ℕ), r.1 = a ∧
        (∃ c, a = mmapHint addr + c * 4096 ∧ First (FreeFrom s.mem pt (mmapHint addr)) 0
          (mmapProbes addr flags) (length.toNat / 4096) c) ∧
        (∀ j < length.toNat / 4096, vmmIsPageFree s.mem pt (a + j * 4096) = true ∧
          mmapHint addr / 4096 ≤ (a + j * 4096) / 4096 ∧
          ((a + j * 4096) / 4096 + 1) * 4096 ≤ mmapEnd flags ∧
          F j ∈ s.pmm.clearBits ∧ Present r.2.mem pt (a + j * 4096) ∧
          vmmVirtToPhys r.2.mem pt (a + j * 4096) = F j * 4096) ∧
        (∀ i < length.toNat / 4096, ∀ j < length.toNat / 4096, F i = F j → i = j) ∧
        ∀ w, (∀ j < length.toNat / 4096, pageNumber w ≠ pageNumber (a + j * 4096)) →
          pageEntry r.2.mem pt w = pageEntry s.mem pt w ∧
          vmmVirtToPhys r.2.mem pt w = vmmVirtToPhys s.mem pt w)
      (fun e => e = outOfMemory ∧ s.pmm.clearBits.card < 4 * (length.toNat / 4096)) := by
  refine (sysMmap_result h addr length prot flags).mono_ok ?_
  rintro ⟨z, s'⟩ (⟨hfail, hsame, -⟩ | ⟨c, F, T, hfirst, -, hz, hbacked⟩)
  · exact .inl ⟨hfail, hsame⟩
  · obtain ⟨hshort, hbelow⟩ := run_below hfirst
    have hn : length.toNat / 4096 ≤ 2 ^ 36 := by omega
    have hpresent := mmapFlags_present prot
    refine .inr ⟨_, F, hz, ⟨c, rfl, hfirst⟩, fun j hj => ?_, hbacked.inj, fun w hw => ?_⟩
    · have hclear : F j ∈ s.pmm.clearBits := by
        have hfresh := hbacked.fresh hj
        rw [Pmm.mem_setBits, Bool.not_eq_true] at hfresh
        rw [Pmm.mem_clearBits, ← hbacked.acq.pages]
        exact ⟨(hbacked.frame_lt hj).2, hfresh⟩
      exact ⟨run_free hfirst hj, by omega, hbelow j hj, hclear,
        (hbacked.covers.visited _ ⟨j, hj, rfl⟩).mpr hpresent, hbacked.virtToPhys hn hpresent hj⟩
    · have hunvisited : ¬Visited (mmapHint addr + c * 4096) (length.toNat / 4096) w := by
        rintro ⟨j, hj, hnumber⟩
        exact hw j hj hnumber
      have hsame := hbacked.others w hunvisited
      refine ⟨hsame, ?_⟩
      rw [vmmVirtToPhys, vmmVirtToPhys, hbacked.tree.virtToPhys, h.virtToPhys, hsame]

theorem accepts_anonymous {length : BitVec 64} (h : length ≠ 0) :
    MmapAccepts 0 length (MAP_PRIVATE ||| MAP_ANONYMOUS) :=
  ⟨h, by decide, by decide, by decide, by decide⟩

theorem freeFrom_emptyRoot (hint k : ℕ) : FreeFrom emptyRoot.mem 1 hint k := by
  rw [FreeFrom, vmmIsPageFree, pageTree_emptyRoot.isPageFree, pageEntry_emptyRoot, empty_vacant]

theorem sysMmap_emptyRoot (prot : BitVec 32) :
    ∃ s', sysMmap emptyRoot 1 0 0x1000 prot (MAP_PRIVATE ||| MAP_ANONYMOUS) = .ok (0x1000, s') := by
  have hpost := sysMmap_result pageTree_emptyRoot 0 0x1000 prot (MAP_PRIVATE ||| MAP_ANONYMOUS)
  obtain ⟨⟨z, s'⟩, hcall, hcase⟩ := hpost.returns_of_not fun e he =>
    absurd he.2 (by decide)
  obtain ⟨-, -, hreason⟩ | ⟨c, F, T, hfirst, -, hz, -⟩ := hcase
  · obtain ⟨-, hzero | hnone⟩ := hreason (accepts_anonymous (by decide))
    · exact absurd hzero (by decide)
    · exact absurd (fun q _ _ => freeFrom_emptyRoot _ q) (hnone 0 le_rfl (by decide))
  · obtain rfl : c = 0 := by
      by_contra hne
      exact hfirst.least 0 le_rfl (Nat.pos_of_ne_zero hne) fun q _ _ => freeFrom_emptyRoot _ q
    obtain rfl : z = 0x1000 := hz
    exact ⟨s', hcall⟩

theorem sys_mmap_keeps_mappings_page : PageTree emptyRoot 1 ∧
    ∃ s', sysMmap emptyRoot 1 0 0x1000 PROT_WRITE (MAP_PRIVATE ||| MAP_ANONYMOUS) =
        .ok (0x1000, s') ∧
      Present s'.mem 1 0x1000 ∧ ∀ w, pageNumber w ≠ 1 → vmmVirtToPhys s'.mem 1 w = 0 := by
  refine ⟨pageTree_emptyRoot, ?_⟩
  obtain ⟨s', hcall⟩ := sysMmap_emptyRoot PROT_WRITE
  refine ⟨s', hcall, ?_⟩
  obtain ⟨hfail, -⟩ | ⟨a, F, ha, -, hpages, -, hothers⟩ :=
    (sys_mmap_keeps_mappings pageTree_emptyRoot 0 0x1000 PROT_WRITE
      (MAP_PRIVATE ||| MAP_ANONYMOUS)).of_ok hcall
  · exact absurd hfail (show ¬(0x1000 : ℤ) < 0 by decide)
  · obtain rfl : 0x1000 = a := Int.ofNat.inj ha
    refine ⟨(hpages 0 (by decide)).2.2.2.2.1, fun w hw => ?_⟩
    have hother := (hothers w fun j hj => ?_).2
    · rw [hother, vmmVirtToPhys, pageTree_emptyRoot.virtToPhys, pageEntry_emptyRoot, empty_phys]
    · obtain rfl : j = 0 := Nat.lt_one_iff.mp hj
      exact hw

/-- User space has `n` free pages in a row, not below the hint. -/
def RoomFor (m : Mem) (pt : ℕ) (addr : BitVec 64) (flags : BitVec 32) (n : ℕ) : Prop :=
  ∃ b, b % 4096 = 0 ∧ mmapHint addr ≤ b ∧ b + n * 4096 ≤ mmapEnd flags ∧
    ∀ j < n, vmmIsPageFree m pt (b + j * 4096) = true

/-- The call returned a page-aligned address, and all bytes from there on are mapped. -/
def Provides (pt length : ℕ) (r : ℤ × Machine) : Prop :=
  ∃ a : ℕ, r.1 = a ∧ a % 4096 = 0 ∧ ∀ x < length, Present r.2.mem pt (a + x)

section Length
variable {s : Machine} {pt : ℕ} {addr length : BitVec 64} {prot flags : BitVec 32}

theorem mmapHint_mod (addr : BitVec 64) : mmapHint addr % 4096 = 0 ↔ addr.toNat % 4096 = 0 := by
  unfold mmapHint
  split
  · next hnull => simp [hnull]
  · rfl

theorem RoomFor.not_noRun (h : PageTree s pt) {n N : ℕ} (hroom : RoomFor s.mem pt addr flags N)
    (hn : n ≤ N) : ¬NoRun (FreeFrom s.mem pt (mmapHint addr)) 0 (mmapProbes addr flags) n := by
  obtain ⟨b, hb, hhint, hend, hfree⟩ := hroom
  intro hnone
  refine hnone (b / 4096 - mmapHint addr / 4096) (Nat.zero_le _) ?_ fun q hlo hhi => ?_
  · unfold mmapProbes PAGE_SIZE
    omega
  · have hpage := hfree (q - (b / 4096 - mmapHint addr / 4096)) (by omega)
    rwa [h.isPageFree_congr (w := mmapHint addr + q * PAGE_SIZE)] at hpage
    unfold pageNumber PAGE_SIZE
    omega

theorem Backed.provides_iff {v n : ℕ} {F : ℕ → ℕ} {T : Finset ℕ} {s' : Machine} {N : ℕ}
    (h : Backed s pt v n (mmapFlags prot) F T s') (hn : n < 2 ^ 36) (hN : N / 4096 = n)
    (hpos : 0 < n) :
    Provides pt N ((v : ℤ), s') ↔
      v % 4096 = 0 ∧ (N % 4096 = 0 ∨ Present s.mem pt (v + n * 4096)) := by
  have hvisited : ∀ j < n, ∀ w, pageNumber w = pageNumber (v + j * 4096) → Present s'.mem pt w :=
    fun j hj w hw => (h.covers.visited w ⟨j, hj, hw⟩).mpr (mmapFlags_present prot)
  have hbehind : ∀ w, pageNumber w = pageNumber (v + n * 4096) →
      (Present s'.mem pt w ↔ Present s.mem pt (v + n * 4096)) := by
    intro w hw
    rw [h.covers.others w ?_, present_iff, present_iff, pageEntry_congr hw]
    rintro ⟨j, hj, hnumber⟩
    rw [hw] at hnumber
    unfold pageNumber at hnumber
    omega
  constructor
  · rintro ⟨a, ha, haligned, hall⟩
    obtain rfl : v = a := Int.ofNat.inj ha
    refine ⟨haligned, or_iff_not_imp_left.mpr fun hrest => ?_⟩
    exact (hbehind _ rfl).mp (hall (n * 4096) (by omega))
  · rintro ⟨haligned, hlast⟩
    refine ⟨v, rfl, haligned, fun x hx => ?_⟩
    by_cases hin : x / 4096 < n
    · refine hvisited (x / 4096) hin (v + x) ?_
      unfold pageNumber
      omega
    · refine (hbehind (v + x) ?_).mpr (hlast.resolve_left (by omega))
      unfold pageNumber
      omega

end Length

/-- When `sys_mmap` provides the requested length: neither the hint nor the length may need rounding,
unless the page behind the lowest run of `length / PAGE_SIZE` free pages happens to be mapped. -/
theorem sys_mmap_provides_iff {s : Machine} {pt : ℕ} (h : PageTree s pt) {addr length : BitVec 64}
    {flags : BitVec 32} (haccepts : MmapAccepts addr length flags)
    (hroom : RoomFor s.mem pt addr flags ((length.toNat + 4095) / 4096)) (prot : BitVec 32) :
    Post (sysMmap s pt addr length prot flags)
      (fun r => Provides pt length.toNat r ↔ addr.toNat % 4096 = 0 ∧ 4096 ≤ length.toNat ∧
        (length.toNat % 4096 = 0 ∨ ∃ c, First (FreeFrom s.mem pt (mmapHint addr)) 0
          (mmapProbes addr flags) (length.toNat / 4096) c ∧
          Present s.mem pt (mmapHint addr + (c + length.toNat / 4096) * 4096)))
      (fun e => e = outOfMemory ∧ s.pmm.clearBits.card < 4 * (length.toNat / 4096)) := by
  refine (sysMmap_result h addr length prot flags).mono_ok ?_
  rintro ⟨z, s'⟩ (⟨hfail, -, hreason⟩ | ⟨c, F, T, hfirst, hpos, hz, hbacked⟩)
  · -- with room for all pages only a length below a page makes the call fail
    have hshort := (hreason haccepts).2.resolve_right (hroom.not_noRun h (by omega))
    constructor
    · rintro ⟨a, ha, -⟩
      dsimp only at hfail ha
      omega
    · rintro ⟨-, hlong, -⟩
      omega
  · subst hz
    have hn := (run_below hfirst).1
    rw [hbacked.provides_iff (by omega) rfl hpos, ← mmapHint_mod addr, Nat.add_mul_mod_self_right,
      and_congr_right_iff]
    intro _
    constructor
    · rintro (hwhole | hlast)
      · exact ⟨by omega, .inl hwhole⟩
      · refine ⟨by omega, .inr ⟨c, hfirst, ?_⟩⟩
        rwa [Nat.add_mul, ← Nat.add_assoc]
    · rintro ⟨-, hwhole | ⟨c', hfirst', hlast⟩⟩
      · exact .inl hwhole
      · rw [hfirst'.unique hfirst, Nat.add_mul, ← Nat.add_assoc] at hlast
        exact .inr hlast

theorem roomFor_emptyRoot {n : ℕ} (h : 0x1000 + n * 4096 ≤ VMM_USER_END) :
    RoomFor emptyRoot.mem 1 0 (MAP_PRIVATE ||| MAP_ANONYMOUS) n := by
  refine ⟨0x1000, by decide, by decide, h, fun j _ => ?_⟩
  rw [vmmIsPageFree, pageTree_emptyRoot.isPageFree, pageEntry_emptyRoot, empty_vacant]

theorem sys_mmap_provides_page :
    (PageTree emptyRoot 1 ∧ MmapAccepts 0 0x1000 (MAP_PRIVATE ||| MAP_ANONYMOUS) ∧
      RoomFor emptyRoot.mem 1 0 (MAP_PRIVATE ||| MAP_ANONYMOUS) 1) ∧
    ∃ r, sysMmap emptyRoot 1 0 0x1000 0 (MAP_PRIVATE ||| MAP_ANONYMOUS) = .ok r ∧
      Provides 1 0x1000 r := by
  have haccepts := accepts_anonymous (show 0x1000#64 ≠ 0 by decide)
  have hroom := roomFor_emptyRoot (n := 1) (by decide)
  refine ⟨⟨pageTree_emptyRoot, haccepts, hroom⟩, ?_⟩
  obtain ⟨s', hcall⟩ := sysMmap_emptyRoot 0
  have hiff := (sys_mmap_provides_iff pageTree_emptyRoot haccepts hroom 0).of_ok hcall
  exact ⟨_, hcall, hiff.mpr ⟨by decide, by decide, .inl (by decide)⟩⟩

/-- A request for one byte fails although all of user space is free. -/
theorem sys_mmap_byte_fails :
    RoomFor emptyRoot.mem 1 0 (MAP_PRIVATE ||| MAP_ANONYMOUS) ((1 + 4095) / 4096) ∧
    ∃ r, sysMmap emptyRoot 1 0 1 0 (MAP_PRIVATE ||| MAP_ANONYMOUS) = .ok r ∧ r.1 = -ENOMEM ∧
      ¬Provides 1 1 r := by
  refine ⟨roomFor_emptyRoot (by decide), ?_⟩
  have hpost := sysMmap_result pageTree_emptyRoot 0 1 0 (MAP_PRIVATE ||| MAP_ANONYMOUS)
  obtain ⟨⟨z, s'⟩, hcall, hcase⟩ := hpost.returns_of_not fun e he =>
    absurd he.2 (by decide)
  obtain ⟨hfail, -, hreason⟩ | ⟨c, F, T, -, hpos, -⟩ := hcase
  · refine ⟨_, hcall, (hreason (accepts_anonymous (by decide))).1, ?_⟩
    rintro ⟨a, ha, -⟩
    dsimp only at hfail ha
    omega
  · exact absurd hpos (by decide)

end GarnOS
