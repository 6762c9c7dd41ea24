import GarnOS.Mem.Memutil

/-! Routing through the I/O APICs: `ioapic_redirect` and `ioapic_get_redirection`. -/
namespace GarnOS.Ioapic
open Outcome

def IOAPICVER : BitVec 32 := 0x01

def IOREDTBL (n : BitVec 32) : BitVec 32 := 0x10 + 2 * n

/-- The globals of `ioapic.c` and the registers of the controllers, each of which is known by its
index. `writes` has every write through `IOWIN`: the controller, the register and the data. -/
structure State where
  ioapicCount : ℕ
  ioapicGSIs : ℕ → BitVec 32
  fallback : Bool
  regs : ℕ → BitVec 8 → BitVec 32
  writes : List (ℕ × ℕ × BitVec 32)
  /-- `ioapic_init` falls back to the PIC only when it has found no I/O APIC. -/
  fallback_none : fallback = true → ioapicCount = 0

/-- The version register is read only. -/
def ioapicWriteReg (s : State) (ioapic : ℕ) (reg : BitVec 8) (data : BitVec 32) : State :=
  if s.fallback then s else
    { s with
      regs := fun k r =>
        if k = ioapic ∧ r = reg ∧ r ≠ IOAPICVER.setWidth 8 then data else s.regs k r
      writes := s.writes ++ [(ioapic, reg.toNat, data)] }

/-- `IOREGSEL` keeps the low byte of what is written to it. -/
def ioapicReadReg (s : State) (ioapic : ℕ) (reg : BitVec 32) : BitVec 32 :=
  if s.fallback then 0 else s.regs ioapic (reg.setWidth 8)

/-- The search for the I/O APIC of `entry`. Behind the last one the addresses are null. -/
def select (s : State) (entry : BitVec 32) : Except Fault ℕ :=
  match (List.range s.ioapicCount).find? fun k =>
      ¬s.ioapicGSIs k + ioapicReadReg s k IOAPICVER >>> 16 < entry with
  | some k => .ok k
  | none => .error (.pageFault 0)

def ioapicRedirect (s : State) (redirection : BitVec 64) (entry : BitVec 32) : Except Fault State :=
  if s.fallback then .ok s else do
    let ioapic ← select s entry
    let s := ioapicWriteReg s ioapic ((IOREDTBL entry).setWidth 8) (redirection.setWidth 32)
    return ioapicWriteReg s ioapic ((IOREDTBL entry + 1).setWidth 8)
      ((redirection >>> 32).setWidth 32)

def ioapicGetRedirection (s : State) (entry : BitVec 32) : Except Fault (BitVec 64) :=
  if s.fallback then .ok 0 else do
    let ioapic ← select s entry
    return (ioapicReadReg s ioapic (IOREDTBL entry)).setWidth 64 |||
      (ioapicReadReg s ioapic (IOREDTBL entry + 1)).setWidth 64 <<< 32

/-- The number of the last redirection entry, bits 16 to 23 of the version register. -/
def State.maxEntry (s : State) (k : ℕ) : ℕ := (s.regs k 1).toNat / 2 ^ 16 % 2 ^ 8

/-- The ranges `[gsi_base, gsi_base + max]` are disjoint and in ascending order, and the reserved
bits of the version registers are clear. -/
structure Listed (s : State) : Prop where
  apart : ∀ {j k}, j < k → k < s.ioapicCount →
    (s.ioapicGSIs j).toNat + s.maxEntry j < (s.ioapicGSIs k).toNat
  reserved : ∀ k < s.ioapicCount, (s.regs k 1).toNat < 2 ^ 24

/-- `gsi` is entry number `n` of the I/O APIC `k`. -/
structure Owns (s : State) (k n : ℕ) (gsi : BitVec 32) : Prop where
  lt : k < s.ioapicCount
  gsi_eq : gsi.toNat = (s.ioapicGSIs k).toNat + n
  le : n ≤ s.maxEntry k

/-- Both halves of `red` are written to entry `n` of the I/O APIC `k`, nothing else is written, and
the redirection then reads back. -/
def Routed (s : State) (red : BitVec 64) (gsi : BitVec 32) (k n : ℕ) : Prop :=
  ∃ s', ioapicRedirect s red gsi = .ok s' ∧
    s'.writes = s.writes ++ [(k, 0x10 + 2 * n, red.setWidth 32),
      (k, 0x10 + 2 * n + 1, (red >>> 32).setWidth 32)] ∧
    ioapicGetRedirection s' gsi = .ok red

variable {s : State} {k n : ℕ} {gsi : BitVec 32} {red : BitVec 64}

theorem Owns.fallback (h : Owns s k n gsi) : s.fallback = false := by
  by_contra hf
  have hnone := s.fallback_none (by simpa using hf)
  have hlt := h.lt
  omega

/-- The search passes a controller whose range ends below the GSI, or wraps. -/
theorem passed_iff (hl : Listed s) (hf : s.fallback = false) {j : ℕ} (hj : j < s.ioapicCount) :
    s.ioapicGSIs j + ioapicReadReg s j IOAPICVER >>> 16 < gsi ↔
      ((s.ioapicGSIs j).toNat + s.maxEntry j) % 2 ^ 32 < gsi.toNat := by
  have hreserved := hl.reserved j hj
  rw [ioapicReadReg, hf, BitVec.lt_def, BitVec.toNat_add, BitVec.toNat_ushiftRight,
    Nat.shiftRight_eq_div_pow, State.maxEntry, Nat.mod_eq_of_lt (a := _ / _) (by omega)]
  rfl

/-- The search ends at the owner, unless the range of the owner wraps: the owner is the last one
then, and it is passed. -/
theorem select_eq (hl : Listed s) (h : Owns s k n gsi) :
    select s gsi =
      if (s.ioapicGSIs k).toNat + s.maxEntry k < 2 ^ 32 then .ok k else .error (.pageFault 0) := by
  have hgsi := h.gsi_eq
  have hle := h.le
  have hbelow : ∀ j < k, s.ioapicGSIs j + ioapicReadReg s j IOAPICVER >>> 16 < gsi := by
    intro j hj
    have hapart := hl.apart hj h.lt
    rw [passed_iff hl h.fallback (hj.trans h.lt), Nat.mod_eq_of_lt (by omega)]
    omega
  have howner := @passed_iff s gsi hl h.fallback k h.lt
  have hmax : s.maxEntry k < 2 ^ 8 := Nat.mod_lt _ (by decide)
  unfold select
  split_ifs with hwrap
  · rw [Nat.mod_eq_of_lt hwrap] at howner
    rw [List.find?_range_eq_some.mpr ⟨?_, List.mem_range.mpr h.lt, ?_⟩]
    · simp only [howner, decide_eq_true_eq]
      omega
    · intro j hj
      simp [hbelow j hj]
  · rw [List.find?_eq_none.mpr]
    intro j hj
    have hj := List.mem_range.mp hj
    obtain hlt | rfl | hgt := lt_trichotomy j k
    · simp [hbelow j hlt]
    · simp only [howner]
      simp
      omega
    · have hapart := hl.apart hgt hj
      omega

section
variable (hf : s.fallback = false) (reg : BitVec 8) (data : BitVec 32)
include hf reg data

theorem readReg_writeReg (j : ℕ) (r : BitVec 32) : ioapicReadReg (ioapicWriteReg s k reg data) j r =
      if j = k ∧ r.setWidth 8 = reg ∧ r.setWidth 8 ≠ IOAPICVER.setWidth 8 then data
      else ioapicReadReg s j r := by
  simp [ioapicReadReg, ioapicWriteReg, hf]

theorem select_writeReg : select (ioapicWriteReg s k reg data) gsi = select s gsi := by
  have hcount : (ioapicWriteReg s k reg data).ioapicCount = s.ioapicCount := by
    simp [ioapicWriteReg, hf]
  have hgsis : (ioapicWriteReg s k reg data).ioapicGSIs = s.ioapicGSIs := by
    simp [ioapicWriteReg, hf]
  have hversion : ∀ j, ioapicReadReg (ioapicWriteReg s k reg data) j IOAPICVER =
      ioapicReadReg s j IOAPICVER := by
    intro j
    rw [readReg_writeReg hf, if_neg (by simp)]
  unfold select
  simp [hcount, hgsis, hversion]

end

theorem halves_eq (red : BitVec 64) :
    (red.setWidth 32).setWidth 64 ||| ((red >>> 32).setWidth 32).setWidth 64 <<< 32 = red := by
  ext i hi
  simp
  grind

section Redirect
variable (s k gsi red)

/-- What `ioapic_redirect` leaves when its search ends at `k`. -/
def redirected : State :=
  ioapicWriteReg (ioapicWriteReg s k ((IOREDTBL gsi).setWidth 8) (red.setWidth 32)) k
    ((IOREDTBL gsi + 1).setWidth 8) ((red >>> 32).setWidth 32)

variable {s}

variable (hf : s.fallback = false)
include hf

theorem ioapicRedirect_eq :
    ioapicRedirect s red gsi = select s gsi >>= fun k => .ok (redirected s k gsi red) := by
  rw [ioapicRedirect, hf]
  rfl

theorem writes_redirected : (redirected s k gsi red).writes =
    s.writes ++ [(k, (0x10 + 2 * gsi.toNat) % 2 ^ 8, red.setWidth 32),
      (k, (0x10 + 2 * gsi.toNat + 1) % 2 ^ 8, (red >>> 32).setWidth 32)] := by
  simp [redirected, ioapicWriteReg, hf, IOREDTBL]

/-- Unless the entry falls on the version register, it reads back. -/
theorem get_redirected (hselect : select s gsi = .ok k)
    (hentry : 16 ≤ (0x10 + 2 * gsi.toNat) % 2 ^ 8) :
    ioapicGetRedirection (redirected s k gsi red) gsi = .ok red := by
  have hlow : ((IOREDTBL gsi).setWidth 8).toNat = (0x10 + 2 * gsi.toNat) % 2 ^ 8 := by
    simp [IOREDTBL]
  have hhigh : ((IOREDTBL gsi + 1).setWidth 8).toNat = (0x10 + 2 * gsi.toNat + 1) % 2 ^ 8 := by
    simp [IOREDTBL]
  have hversion : (IOAPICVER.setWidth 8).toNat = 1 := rfl
  have hf₁ : (ioapicWriteReg s k ((IOREDTBL gsi).setWidth 8) (red.setWidth 32)).fallback = false := by
    simp [ioapicWriteReg, hf]
  have hf₂ : (redirected s k gsi red).fallback = false := by
    simp [redirected, ioapicWriteReg, hf]
  have hread : ioapicReadReg (redirected s k gsi red) k (IOREDTBL gsi) = red.setWidth 32 := by
    rw [redirected, readReg_writeReg hf₁, if_neg, readReg_writeReg hf, if_pos]
    · exact ⟨rfl, rfl, BitVec.toNat_ne_iff_ne.mp (by omega)⟩
    · exact fun h => BitVec.toNat_ne_iff_ne.mp (by omega) h.2.1
  have hread' : ioapicReadReg (redirected s k gsi red) k (IOREDTBL gsi + 1) =
      (red >>> 32).setWidth 32 := by
    rw [redirected, readReg_writeReg hf₁, if_pos]
    exact ⟨rfl, rfl, BitVec.toNat_ne_iff_ne.mp (by omega)⟩
  have hselect' : select (redirected s k gsi red) gsi = .ok k := by
    rw [redirected, select_writeReg hf₁, select_writeReg hf, hselect]
  rw [ioapicGetRedirection, hf₂, hselect']
  exact congrArg Except.ok (hread ▸ hread' ▸ halves_eq red)

end Redirect

theorem ioapic_routed_iff (hl : Listed s) (h : Owns s k n gsi) (red : BitVec 64) :
    Routed s red gsi k n ↔ (s.ioapicGSIs k).toNat % 128 = 0 ∧ n < 120 ∧
      (s.ioapicGSIs k).toNat + s.maxEntry k < 2 ^ 32 := by
  have hf := h.fallback
  have hgsi := h.gsi_eq
  have hselect := select_eq hl h
  rw [Routed, ioapicRedirect_eq gsi red hf]
  constructor
  · rintro ⟨s', hs', hwrites, -⟩
    split_ifs at hselect with hwrap
    · rw [hselect] at hs'
      cases hs'
      rw [writes_redirected k gsi red hf] at hwrites
      simp at hwrites
      omega
    · rw [hselect] at hs'
      cases hs'
  · rintro ⟨hbase, hn, hwrap⟩
    rw [if_pos hwrap] at hselect
    rw [hselect]
    have hlow : (0x10 + 2 * gsi.toNat) % 2 ^ 8 = 0x10 + 2 * n := by omega
    have hhigh : (0x10 + 2 * gsi.toNat + 1) % 2 ^ 8 = 0x10 + 2 * n + 1 := by omega
    refine ⟨_, rfl, ?_, get_redirected k gsi red hf hselect (by omega)⟩
    rw [writes_redirected k gsi red hf, hlow, hhigh]

/-- Two I/O APICs with 24 entries each, at 0 and at 24. -/
def twoIoapics : State where
  ioapicCount := 2
  ioapicGSIs := fun k => 24 * BitVec.ofNat 32 k
  fallback := false
  regs := fun _ _ => 0x170011
  writes := []
  fallback_none := nofun

theorem listed_twoIoapics : Listed twoIoapics where
  apart := by
    intro j k hjk (hk : k < 2)
    obtain rfl : j = 0 := by omega
    obtain rfl : k = 1 := by omega
    decide
  reserved := fun _ _ => (by decide : (0x170011 : BitVec 32).toNat < 2 ^ 24)

theorem ioapic_routed_first : (Listed twoIoapics ∧ Owns twoIoapics 0 9 9) ∧
    Routed twoIoapics 0x29 9 0 9 := by
  have howns : Owns twoIoapics 0 9 9 := ⟨by decide, rfl, by decide⟩
  exact ⟨⟨listed_twoIoapics, howns⟩,
    (ioapic_routed_iff listed_twoIoapics howns 0x29).mpr ⟨rfl, by decide, by decide⟩⟩

/-- GSI 24 is entry 0 of the second I/O APIC, but its redirection goes to entry 24. -/
theorem ioapic_routed_second : Listed twoIoapics ∧ Owns twoIoapics 1 0 24 ∧
    ∃ s', ioapicRedirect twoIoapics 0x38 24 = .ok s' ∧
      s'.writes = [(1, 0x10 + 2 * 24, 0x38), (1, 0x10 + 2 * 24 + 1, 0)] :=
  ⟨listed_twoIoapics, ⟨by decide, rfl, by decide⟩, _, rfl, rfl⟩

end GarnOS.Ioapic
