import GarnOS.Mem.Memutil

/-! The walks of `ioapic_init` and `apic_init` over the entries of the MADT. -/
namespace GarnOS.Apic
open Outcome

def ACPI_MADT_ENTRY_TYPE_LAPIC : BitVec 8 := 0
def ACPI_MADT_ENTRY_TYPE_IOAPIC : BitVec 8 := 1
def ACPI_MADT_ENTRY_TYPE_INTERRUPT_SOURCE_OVERRIDE : BitVec 8 := 2
def ACPI_MADT_ENTRY_TYPE_NMI_SOURCE : BitVec 8 := 3
def ACPI_MADT_ENTRY_TYPE_LAPIC_NMI : BitVec 8 := 4
def ACPI_MADT_ENTRY_TYPE_LAPIC_ADDRESS_OVERRIDE : BitVec 8 := 5

/-- `sizeof(struct acpi_madt)`, where `entries` starts. -/
def MADT_SIZE : ℕ := 44

/-- The table in memory: `hdr.length`, and the byte at each offset from the start of the table, those
behind its end included. -/
structure Madt where
  length : BitVec 32
  byte : ℕ → BitVec 8

/-- `MADT->hdr.length - sizeof(struct acpi_madt)`, which is a `size_t`. -/
def Madt.limit (t : Madt) : ℕ := u64 (t.length.toNat - MADT_SIZE)

/-- One entry loop from the header at `entries + i` on, with `body` for the entries of type `type`.
The result lists the offsets of the header bytes in the order they are read. -/
def entryLoop (t : Madt) (type : BitVec 8) (body : ℕ → Except Fault (List ℕ)) :
    ℕ → ℕ → Except Fault (List ℕ)
  | 0, _ => .error .diverges
  | fuel + 1, i =>
    if i < t.limit then do
      let hdr := MADT_SIZE + i
      let reads ← (if t.byte hdr ≠ type then .ok [] else body hdr)
      let rest ← entryLoop t type body fuel ((i + (t.byte (hdr + 1)).toNat) % 2 ^ 64)
      return hdr :: (reads ++ (hdr + 1) :: rest)
    else return []

/-- The entry loops: three of `ioapic_init`, two of `apic_init` on the CPU `lapicID`. -/
inductive Walk where
  | ioapic
  | sourceOverride
  | nmiSource
  | lapicAddressOverride
  | lapic (lapicID : BitVec 32)

def Walk.type : Walk → BitVec 8
  | ioapic => ACPI_MADT_ENTRY_TYPE_IOAPIC
  | sourceOverride => ACPI_MADT_ENTRY_TYPE_INTERRUPT_SOURCE_OVERRIDE
  | nmiSource => ACPI_MADT_ENTRY_TYPE_NMI_SOURCE
  | lapicAddressOverride => ACPI_MADT_ENTRY_TYPE_LAPIC_ADDRESS_OVERRIDE
  | lapic _ => ACPI_MADT_ENTRY_TYPE_LAPIC

/-- The headers that the loop reads at an entry at `hdr` of its type. Only `apic_init` reads some:
where `lapicRec->id` is its own, it looks for the LAPIC NMI structures. -/
def Walk.body (t : Madt) (fuel : ℕ) : Walk → ℕ → Except Fault (List ℕ)
  | lapic lapicID, hdr =>
    if (t.byte (hdr + 3)).setWidth 32 = lapicID then
      entryLoop t ACPI_MADT_ENTRY_TYPE_LAPIC_NMI (fun _ => .ok []) fuel 0
    else .ok []
  | _, _ => .ok []

/-- The walk, where `act` is what else is done with an entry. It may fault: `ioapic_redirect` does for
an override with a GSI that no I/O APIC has. -/
def Walk.run (t : Madt) (w : Walk) (act : ℕ → Except Fault Unit) (fuel : ℕ) :
    Except Fault (List ℕ) :=
  entryLoop t w.type (fun hdr => act hdr >>= fun _ => w.body t fuel hdr) fuel 0

def InTable (t : Madt) (a : ℕ) : Prop := MADT_SIZE ≤ a ∧ a < t.length.toNat

/-- The entries from offset `i` on: each has its header inside the table and a length, and the table
ends before another one begins. -/
inductive Entries (t : Madt) : ℕ → Prop
  | stop {i : ℕ} (h : t.length.toNat ≤ MADT_SIZE + i) : Entries t i
  | entry {i : ℕ} (h : MADT_SIZE + i + 1 < t.length.toNat) (hlen : t.byte (MADT_SIZE + i + 1) ≠ 0)
      (rest : Entries t (i + (t.byte (MADT_SIZE + i + 1)).toNat)) : Entries t i

def WellFormed (t : Madt) : Prop := MADT_SIZE ≤ t.length.toNat ∧ Entries t 0

variable {t : Madt} {type : BitVec 8} {body : ℕ → Except Fault (List ℕ)} {fuel i : ℕ}

theorem limit_of_le (h : MADT_SIZE ≤ t.length.toNat) : t.limit = t.length.toNat - MADT_SIZE := by
  unfold Madt.limit u64
  omega

/-- An entry of length 0 holds the loop where it is. -/
theorem entryLoop_stuck (hi : i < t.limit) (hlen : t.byte (MADT_SIZE + i + 1) = 0)
    (reads : List ℕ) : entryLoop t type body fuel i ≠ .ok reads := by
  have hstay : (i + (t.byte (MADT_SIZE + i + 1)).toNat) % 2 ^ 64 = i := by
    have hlt : t.limit < 2 ^ 64 := by unfold Madt.limit u64; omega
    rw [hlen, BitVec.ofNat_eq_ofNat, BitVec.toNat_zero]
    omega
  induction fuel generalizing reads with
  | zero => exact nofun
  | succ fuel ih =>
    intro h
    rw [entryLoop, if_pos hi] at h
    obtain ⟨inner, -, h⟩ := bind_eq_ok.mp h
    obtain ⟨rest, hrest, -⟩ := bind_eq_ok.mp h
    exact ih rest (hstay ▸ hrest)

theorem entries_of_ok (hsize : MADT_SIZE ≤ t.length.toNat) {reads : List ℕ}
    (h : entryLoop t type body fuel i = .ok reads) (hin : ∀ a ∈ reads, InTable t a) :
    Entries t i := by
  have hlimit := limit_of_le hsize
  induction fuel generalizing i reads with
  | zero => cases h
  | succ fuel ih =>
    by_cases hi : i < t.limit
    · have hlen : t.byte (MADT_SIZE + i + 1) ≠ 0 := fun hzero => entryLoop_stuck hi hzero _ h
      rw [entryLoop, if_pos hi] at h
      obtain ⟨inner, -, h⟩ := bind_eq_ok.mp h
      obtain ⟨rest, hrest, h⟩ := bind_eq_ok.mp h
      cases h
      have hlast : MADT_SIZE + i + 1 < t.length.toNat := (hin _ (by simp)).2
      rw [Nat.mod_eq_of_lt (by omega)] at hrest
      exact .entry hlast hlen (ih hrest fun a ha => hin a (by simp [ha]))
    · exact .stop (by omega)

theorem entryLoop_post (hsize : MADT_SIZE ≤ t.length.toNat) (h : Entries t i)
    (hbody : ∀ hdr, Post (body hdr) (∀ a ∈ ·, InTable t a) fun _ => False)
    (hfuel : t.limit - i < fuel) :
    Post (entryLoop t type body fuel i) (∀ a ∈ ·, InTable t a) fun _ => False := by
  have hlimit := limit_of_le hsize
  induction h generalizing fuel with
  | @stop i h =>
    obtain _ | fuel := fuel
    · omega
    · rw [entryLoop, if_neg (by omega)]
      exact post_ok.mpr (by simp)
  | @entry i hlast hlen rest ih =>
    have hpos : 0 < (t.byte (MADT_SIZE + i + 1)).toNat := by
      refine Nat.pos_of_ne_zero fun hzero => hlen (BitVec.eq_of_toNat_eq hzero)
    obtain _ | fuel := fuel
    · omega
    · rw [entryLoop, if_pos (by omega)]
      dsimp only
      rw [Nat.mod_eq_of_lt (by omega)]
      have hreads : Post (if t.byte (MADT_SIZE + i) ≠ type then .ok [] else body (MADT_SIZE + i))
          (∀ a ∈ ·, InTable t a) fun _ => False := by
        split
        · exact post_ok.mpr (by simp)
        · exact hbody _
      apply hreads.bind
      intro reads hreads
      apply (ih (by omega)).bind
      intro rest hrest
      refine post_pure.mpr fun a ha => ?_
      simp only [List.mem_cons, List.mem_append] at ha
      obtain rfl | ha | rfl | ha := ha
      · exact ⟨by omega, by omega⟩
      · exact hreads a ha
      · exact ⟨by omega, hlast⟩
      · exact hrest a ha

theorem body_post (h : WellFormed t) (w : Walk) (hfuel : t.limit < fuel) (hdr : ℕ) :
    Post (w.body t fuel hdr) (∀ a ∈ ·, InTable t a) fun _ => False := by
  have hnone : Post (.ok [] : Except Fault (List ℕ)) (∀ a ∈ ·, InTable t a) fun _ => False :=
    post_ok.mpr (by simp)
  cases w with
  | lapic lapicID =>
    rw [Walk.body]
    split
    · exact entryLoop_post h.1 h.2 (fun _ => hnone) hfuel
    · exact hnone
  | ioapic | sourceOverride | nmiSource | lapicAddressOverride => exact hnone

/-- Each of the loops, where what it does with the entries returns, ends and reads headers only inside
the table just where the entries fill the table, each with a length of its own. -/
theorem madt_walk_iff (t : Madt) (w : Walk) (act : ℕ → Except Fault Unit)
    (hact : ∀ hdr, act hdr = .ok ()) :
    (∃ fuel reads, w.run t act fuel = .ok reads ∧ ∀ a ∈ reads, InTable t a) ↔ WellFormed t := by
  constructor
  · rintro ⟨fuel, reads, h, hin⟩
    have hsize : MADT_SIZE ≤ t.length.toNat := by
      -- With a shorter header the bound wraps, and the first header is read behind the table.
      by_contra hshort
      have hi : 0 < t.limit := by unfold MADT_SIZE at hshort; unfold Madt.limit u64 MADT_SIZE; omega
      obtain _ | fuel := fuel
      · cases h
      · rw [Walk.run, entryLoop, if_pos hi] at h
        obtain ⟨inner, -, h⟩ := bind_eq_ok.mp h
        obtain ⟨rest, -, h⟩ := bind_eq_ok.mp h
        cases h
        have hfirst := hin MADT_SIZE (by simp)
        exact hshort hfirst.2.le
    exact ⟨hsize, entries_of_ok hsize h hin⟩
  · intro h
    have hpost : Post (w.run t act (t.limit + 1)) (∀ a ∈ ·, InTable t a) fun _ => False := by
      simp only [Walk.run, hact, ok_bind]
      exact entryLoop_post h.1 h.2 (body_post h w (Nat.lt_succ_self _)) (Nat.lt_succ_self _)
    exact ⟨_, hpost.returns⟩

/-- A table with one entry, a header and nothing else. -/
theorem madt_walk_iff_entry : ∃ fuel reads,
    Walk.ioapic.run ⟨46, fun _ => 2⟩ (fun _ => .ok ()) fuel = .ok reads ∧
      ∀ a ∈ reads, InTable ⟨46, fun _ => 2⟩ a :=
  (madt_walk_iff _ .ioapic _ fun _ => rfl).mpr
    ⟨by decide, .entry (by decide) (by decide) (.stop (by decide))⟩

/-- An entry of length 0 is walked for ever, and of a table that ends behind a type byte the byte
after it is read. -/
theorem madt_walk_malformed :
    (∀ fuel, Walk.ioapic.run ⟨46, fun _ => 0⟩ (fun _ => .ok ()) fuel = .error .diverges) ∧
    Walk.ioapic.run ⟨45, fun _ => 1⟩ (fun _ => .ok ()) 2 = .ok [44, 45] ∧
    ¬InTable ⟨45, fun _ => 1⟩ 45 := by
  refine ⟨fun fuel => ?_, by decide, fun h => absurd h.2 (by decide)⟩
  change entryLoop _ _ (fun _ => .ok []) fuel 0 = _
  induction fuel with
  | zero => rfl
  | succ fuel ih =>
    rw [entryLoop, if_pos (by decide)]
    simpa [MADT_SIZE] using congrArg (Functor.map fun rest => 44 :: 45 :: rest) ih

end GarnOS.Apic
