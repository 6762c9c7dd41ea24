import GarnOS.Sys.Time

/-! The real-time clock: the modes that `attach` finds, and the time that `rtc_handler` sets. -/
namespace GarnOS.Rtc
open Time

def RTC_SECONDS : BitVec 8 := 0x00
def RTC_MINUTES : BitVec 8 := 0x02
def RTC_HOURS : BitVec 8 := 0x04
def RTC_DAY_OF_MONTH : BitVec 8 := 0x07
def RTC_MONTH : BitVec 8 := 0x08
def RTC_YEAR : BitVec 8 := 0x09
def RTC_STATUS_C : BitVec 8 := 0x0C
def RTC_CENTURY : BitVec 8 := 0x32

/-- The globals of `rtc.c`, whether the FADT names a century register, and the kernel time. -/
structure State where
  hourMode : Bool
  binary : Bool
  century : Bool
  kernelTime : Timespec64

/-- What `attach` keeps of status register B, and what it writes back. -/
def attach (s : State) (statb : BitVec 8) : State × BitVec 8 :=
  ({ s with
    binary := s.binary || statb &&& 4 ≠ 0
    hourMode := s.hourMode || statb &&& 2 ≠ 0 }, (statb ||| 0x10) &&& ~~~0x60)

def rtcBcdToBin (bcd : BitVec 8) : BitVec 8 :=
  ((bcd &&& 0xF0) >>> 1) + ((bcd &&& 0xF0) >>> 3) + (bcd &&& 0x0F)

def State.toBin (s : State) (value : BitVec 8) : BitVec 8 :=
  if s.binary then value else rtcBcdToBin value

def State.hours (s : State) (value : BitVec 8) : BitVec 8 :=
  let hours := s.toBin value
  if !s.hourMode && hours &&& 0x80 ≠ 0 then ((hours &&& 0x7F) + 12) % 24 else hours

/-- The `systime_t` that the handler assembles from the registers. -/
def State.time (s : State) (cmos : BitVec 8 → BitVec 8) : Systime where
  seconds := (s.toBin (cmos RTC_SECONDS)).toNat
  minutes := (s.toBin (cmos RTC_MINUTES)).toNat
  hours := (s.hours (cmos RTC_HOURS)).toNat
  dayOfMonth := (s.toBin (cmos RTC_DAY_OF_MONTH)).toNat
  month := (s.toBin (cmos RTC_MONTH)).toNat
  year := (s.toBin (if s.century then cmos RTC_CENTURY else 19)).toNat * 100 +
    (s.toBin (cmos RTC_YEAR)).toNat

def rtcHandler (s : State) (cmos : BitVec 8 → BitVec 8) : Option State :=
  if cmos RTC_STATUS_C &&& 0x90 = 0 then some s
  else do return { s with kernelTime := ← timeConvToUnix64 (s.time cmos) }

/-- A number as the clock shows it, in binary or in two decimal digits. -/
def shown (binary : Bool) (n : ℕ) : BitVec 8 :=
  BitVec.ofNat 8 (if binary then n else 16 * (n / 10) + n % 10)

/-- An hour as the clock shows it: from 1 to 12 with a mark in the afternoon, if not up to 23. -/
def shownHour (hourMode binary : Bool) (h : ℕ) : BitVec 8 :=
  if hourMode then shown binary h
  else shown binary ((h + 11) % 12 + 1) ||| if 12 ≤ h then 0x80 else 0

/-- The clock shows `t` in the modes of `s`. -/
structure Shows (s : State) (cmos : BitVec 8 → BitVec 8) (t : Systime) : Prop where
  seconds : cmos RTC_SECONDS = shown s.binary t.seconds
  minutes : cmos RTC_MINUTES = shown s.binary t.minutes
  hours : cmos RTC_HOURS = shownHour s.hourMode s.binary t.hours
  dayOfMonth : cmos RTC_DAY_OF_MONTH = shown s.binary t.dayOfMonth
  month : cmos RTC_MONTH = shown s.binary t.month
  year : cmos RTC_YEAR = shown s.binary (t.year % 100)
  century : s.century = true → cmos RTC_CENTURY = shown s.binary (t.year / 100)

/-- All times with hours up to 23, mornings without midnight in hours up to 12, and in binary the
afternoons too; of a century that has no register only the 19th, and only in binary. -/
def State.Reads (s : State) (t : Systime) : Prop :=
  (s.hourMode = true ∨ t.hours % 12 ≠ 0 ∧ (t.hours < 12 ∨ s.binary = true)) ∧
    (s.century = true ∨ s.binary = true ∧ t.year / 100 = 19)

section Handler
variable {s : State} {cmos : BitVec 8 → BitVec 8} {t : Systime} {n : ℕ}

theorem toBin_shown (hn : n < 100) : (s.toBin (shown s.binary n)).toNat = n := by
  have hall : ∀ b : Bool, ∀ n < 100,
      (if b then shown b n else rtcBcdToBin (shown b n)).toNat = n := by decide +kernel
  exact hall s.binary n hn

/-- The mark of the afternoon is lost among decimal digits, and 12 is read as the twelfth hour
after the one it is. -/
theorem hours_shown (hn : n < 24) : (s.hours (shownHour s.hourMode s.binary n)).toNat = n ↔
    s.hourMode = true ∨ n % 12 ≠ 0 ∧ (n < 12 ∨ s.binary = true) := by
  have hall : ∀ mode bin : Bool, ∀ n < 24,
      (State.hours ⟨mode, bin, true, ⟨0, 0⟩⟩ (shownHour mode bin n)).toNat = n ↔
        mode = true ∨ n % 12 ≠ 0 ∧ (n < 12 ∨ bin = true) := by decide +kernel
  exact hall s.hourMode s.binary n hn

/-- Without its register the century is 19, from which decimal digits make 13. -/
theorem century_default (hn : 1970 ≤ n) : (s.toBin 19).toNat * 100 + n % 100 = n ↔
    s.binary = true ∧ n / 100 = 19 := by
  unfold State.toBin
  cases s.binary with
  | true =>
    change 19 * 100 + n % 100 = n ↔ true = true ∧ _
    rw [and_iff_right rfl]
    omega
  | false =>
    change 13 * 100 + n % 100 = n ↔ false = true ∧ _
    simp only [Bool.false_eq_true, false_and, iff_false]
    omega

theorem Shows.time_eq_iff (hshows : Shows s cmos t) (h : t.Valid) :
    s.time cmos = t ↔ s.Reads t := by
  obtain ⟨hdate, hy, hy', hhours, hminutes, hseconds⟩ := h
  have hday : t.dayOfMonth < 100 :=
    (hdate.2.2.trans (by unfold daysInMonth; split_ifs <;> omega : _ ≤ 31)).trans_lt (by decide)
  have hmonth : t.month < 100 := hdate.1.2.trans_lt (by decide)
  have hyear : (s.toBin (if s.century then cmos RTC_CENTURY else 19)).toNat * 100 + t.year % 100 =
      t.year ↔ s.century = true ∨ s.binary = true ∧ t.year / 100 = 19 := by
    cases hc : s.century with
    | true =>
      rw [if_pos rfl, hshows.century hc, toBin_shown (by omega)]
      exact iff_of_true (Nat.div_add_mod' _ _) (.inl rfl)
    | false => simpa using century_default hy
  rw [State.Reads, ← hours_shown hhours, ← hyear, State.time, hshows.seconds, hshows.minutes, hshows.hours,
    hshows.dayOfMonth, hshows.month, hshows.year, toBin_shown (by omega), toBin_shown (by omega),
    toBin_shown hday, toBin_shown hmonth, toBin_shown (by omega)]
  obtain ⟨sec, min, hour, day, month, year⟩ := t
  simp only [Systime.mk.injEq, true_and]

/-- In the modes that `attach` finds and leaves as they are, the handler sets the time that the clock
shows exactly if it can read it. -/
theorem rtc_time_exact_iff (h : t.Valid) (hshows : Shows s cmos t) :
    (s.time cmos = t ↔ s.Reads t) ∧
    (s.Reads t → cmos RTC_STATUS_C &&& 0x90 ≠ 0 → unixSeconds t < 2 ^ 31 →
      ∃ r, rtcHandler s cmos = some { s with kernelTime := r } ∧ r.sec = unixSeconds t ∧
        timeConvToSystime64 r = some t) ∧
    ∀ statb, (attach s statb).2 &&& 6 = statb &&& 6 := by
  refine ⟨hshows.time_eq_iff h, fun hreads hirq hfits => ?_, fun statb => ?_⟩
  · refine ⟨⟨unixSeconds t, 0⟩, ?_, rfl, timeConvToSystime64_eq h 0⟩
    rw [rtcHandler, if_neg hirq, (hshows.time_eq_iff h).mpr hreads, timeConvToUnix64_eq h, if_pos hfits]
    rfl
  · have hall : ∀ b : BitVec 8, (b ||| 0x10) &&& ~~~0x60 &&& 6 = b &&& 6 := by decide
    exact hall statb

/-- The last second of 2037, in decimal digits and hours up to 23. -/
def clock2037 (reg : BitVec 8) : BitVec 8 :=
  [0x59, 0, 0x59, 0, 0x23, 0, 0, 0x31, 0x12, 0x37, 0, 0, 0x90].getD reg.toNat 0x20

theorem rtc_time_exact_2037 : ∃ r,
    rtcHandler ⟨true, false, true, ⟨0, 0⟩⟩ clock2037 = some ⟨true, false, true, r⟩ ∧
    timeConvToSystime64 r = some ⟨59, 59, 23, 31, 12, 2037⟩ := by
  have hvalid : (⟨59, 59, 23, 31, 12, 2037⟩ : Systime).Valid := by
    unfold Systime.Valid Valid
    decide
  obtain ⟨r, hr, -, ht⟩ := (@rtc_time_exact_iff ⟨true, false, true, ⟨0, 0⟩⟩ clock2037 _ hvalid
    ⟨rfl, rfl, rfl, rfl, rfl, rfl, fun _ => rfl⟩).2.1 ⟨.inl rfl, .inl rfl⟩ (by decide) (by decide)
  exact ⟨r, hr, ht⟩

end Handler
end GarnOS.Rtc
