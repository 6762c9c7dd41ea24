import Mathlib.Tactic

/-! Calendar time: day numbers of civil dates, and the conversions of `time.c`. -/
namespace GarnOS.Time
open Nat Option

/-- The result of `int` operations with the values `steps`. Outside of the type it is undefined. -/
def checked {α : Type} (steps : List ℤ) (r : α) : Option α :=
  if ∀ z ∈ steps, -2 ^ 31 ≤ z ∧ z < 2 ^ 31 then some r else none

/-- The conversion to an unsigned type of `w` bits. -/
def unsigned (w : ℕ) (z : ℤ) : ℤ := z % 2 ^ w

/-- The conversion to `int`. -/
def toInt (z : ℤ) : ℤ := if unsigned 32 z < 2 ^ 31 then unsigned 32 z else unsigned 32 z - 2 ^ 32

def timeDaysFromCivil (y m d : ℤ) : Option ℤ :=
  let y := y - if m ≤ 2 then 1 else 0
  let n := if y ≥ 0 then y else y - 399
  let era := n.tdiv 400
  let yoe := y - era * 400
  let mp := if m > 2 then m - 3 else m + 9
  let doy := (153 * mp + 2).tdiv 5 + d - 1
  let doe := yoe * 365 + yoe.tdiv 4 - yoe.tdiv 100 + doy
  checked [y, n, era * 400, yoe, mp, 153 * mp, 153 * mp + 2, (153 * mp + 2).tdiv 5 + d, doy,
    yoe * 365, yoe * 365 + yoe.tdiv 4, yoe * 365 + yoe.tdiv 4 - yoe.tdiv 100, doe, era * 146097,
    era * 146097 + doe, era * 146097 + doe - 719468] (era * 146097 + doe - 719468)

/-- `time` is unsigned, so its comparison with zero always succeeds. -/
def timeCivilFromDays (daysSinceEpoch : ℤ) : Option (ℤ × ℤ × ℤ) :=
  let time := unsigned 64 (daysSinceEpoch + 719468)
  let era := toInt (time / 146097)
  let doe := unsigned 32 (unsigned 64 (time - era * 146097))
  let yoe := unsigned 32 (doe - doe / 1460 + doe / 36524 - doe / 146096) / 365
  let y := toInt (yoe + era * 400)
  let doy := unsigned 32 (doe - (365 * yoe + yoe / 4 - yoe / 100))
  let mp := unsigned 32 (5 * doy + 2) / 153
  let d := unsigned 32 (doy - unsigned 32 (153 * mp + 2) / 5 + 1)
  let m := unsigned 32 (mp + if mp < 10 then 3 else -9)
  let year := y + if m ≤ 2 then 1 else 0
  checked [era * 146097, era * 400, year] (year, toInt m, toInt d)

abbrev Leap (y : ℕ) : Prop := 4 ∣ y ∧ (¬100 ∣ y ∨ 400 ∣ y)

def daysInMonth (y m : ℕ) : ℕ :=
  if m = 2 then if Leap y then 29 else 28
  else if m = 4 ∨ m = 6 ∨ m = 9 ∨ m = 11 then 30 else 31

/-- A date of the Gregorian calendar. -/
def Valid (y m d : ℕ) : Prop := (1 ≤ m ∧ m ≤ 12) ∧ 1 ≤ d ∧ d ≤ daysInMonth y m

def nextDate (y m d : ℕ) : ℕ × ℕ × ℕ :=
  if d < daysInMonth y m then (y, m, d + 1)
  else if m < 12 then (y, m + 1, 1)
  else (y + 1, 1, 1)

section Eras
variable {y m d yoe doy mp : ℕ}

/-- Days before the first of March. -/
def yearStart (y : ℕ) : ℕ := 365 * y + y / 4 - y / 100 + y / 400

/-- Days from the first of March to the first of the month `mp` after it. -/
def monthStart (mp : ℕ) : ℕ := (153 * mp + 2) / 5

def marchYear (y m : ℕ) : ℕ := if m ≤ 2 then y - 1 else y
def marchMonth (m : ℕ) : ℕ := if m ≤ 2 then m + 9 else m - 3

/-- The day number in one formula. -/
def days (y m d : ℕ) : ℕ := yearStart (marchYear y m) + monthStart (marchMonth m) + d - 719469

/-- The year as the code finds it from the day of the era. -/
def yearOf (doe : ℕ) : ℕ := (doe - doe / 1460 + doe / 36524 - doe / 146096) / 365

theorem yearOf_mono : Monotone yearOf := by
  refine monotone_nat_of_le_succ fun n => Nat.div_le_div_right ?_
  omega

theorem yearOf_ends : ∀ yoe < 400, yearOf (yearStart yoe) = yoe ∧
    yearOf (yearStart (yoe + 1) - 1) = yoe := by decide +kernel

/-- The year is right on its first and on its last day, and so between them. -/
theorem yearOf_eq (h : yoe < 400) (hdoy : yearStart yoe + doy < yearStart (yoe + 1)) :
    yearOf (yearStart yoe + doy) = yoe := by
  obtain ⟨hfirst, hlast⟩ := yearOf_ends yoe h
  have hge := yearOf_mono (le_add_right (yearStart yoe) doy)
  have hle := yearOf_mono (show yearStart yoe + doy ≤ yearStart (yoe + 1) - 1 by omega)
  omega

theorem yearStart_succ (y : ℕ) :
    yearStart (y + 1) = yearStart y + 365 + if Leap (y + 1) then 1 else 0 := by
  have hle : y / 100 ≤ y / 4 := Nat.div_le_div_left (by decide) (by decide)
  unfold yearStart Leap
  rw [Nat.succ_div, Nat.succ_div, Nat.succ_div]
  generalize y / 4 = a, y / 100 = b, y / 400 = c at *
  by_cases h : 4 ∣ y + 1 <;> by_cases h' : 100 ∣ y + 1 <;> by_cases h'' : 400 ∣ y + 1 <;>
    simp_all <;> omega

theorem yearStart_mono : Monotone yearStart := by
  refine monotone_nat_of_le_succ fun y => ?_
  rw [yearStart_succ]
  omega

theorem daysInMonth_eq (hm : 1 ≤ m ∧ m ≤ 12) (h2 : m ≠ 2) (y : ℕ) :
    daysInMonth y m + monthStart (marchMonth m) = monthStart (marchMonth m + 1) := by
  obtain ⟨h1, h12⟩ := hm
  interval_cases m <;> simp_all [daysInMonth, monthStart, marchMonth]

theorem daysInMonth_two (y : ℕ) : daysInMonth y 2 = 28 + if Leap y then 1 else 0 := by
  rw [daysInMonth, if_pos rfl]
  split_ifs <;> rfl

section
variable (h : Valid y m d) (hy : 1970 ≤ y)
include h hy

/-- A date lies in its month, and its month in its year. -/
theorem Valid.inside : marchMonth m < 12 ∧
    monthStart (marchMonth m) + d ≤ monthStart (marchMonth m + 1) ∧
    yearStart (marchYear y m) + monthStart (marchMonth m) + d ≤ yearStart (marchYear y m + 1) := by
  obtain ⟨hm, -, hd⟩ := h
  have hnext := yearStart_succ (marchYear y m)
  by_cases h2 : m = 2
  · subst h2
    rw [daysInMonth_two] at hd
    simp only [marchYear, marchMonth, monthStart, le_refl, if_true,
      Nat.sub_add_cancel (show 1 ≤ y by omega)] at hnext ⊢
    split_ifs at * <;> omega
  · have hlen := daysInMonth_eq hm h2 y
    unfold marchMonth monthStart at *
    split_ifs at * <;> omega

theorem Valid.le_days : 719469 ≤ yearStart (marchYear y m) + monthStart (marchMonth m) + d := by
  have hstart : yearStart 1969 = 719162 ∧ yearStart 1970 = 719527 := ⟨rfl, rfl⟩
  obtain ⟨⟨h1, h12⟩, hd, -⟩ := h
  unfold marchYear marchMonth
  split_ifs with hm
  · have := yearStart_mono (show 1969 ≤ y - 1 by omega)
    unfold monthStart
    omega
  · have := yearStart_mono hy
    omega

theorem days_nextDate :
    days (nextDate y m d).1 (nextDate y m d).2.1 (nextDate y m d).2.2 = days y m d + 1 := by
  have hle := h.le_days hy
  obtain ⟨hm, hd⟩ := h
  unfold nextDate days
  by_cases hlt : d < daysInMonth y m
  · simp only [hlt, if_true]
    omega
  · obtain rfl : d = daysInMonth y m := by omega
    rw [if_neg hlt]
    by_cases h2 : m = 2
    · subst h2
      have hnext := yearStart_succ (y - 1)
      rw [Nat.sub_add_cancel (by omega)] at hnext
      simp [daysInMonth_two, monthStart, marchMonth, marchYear] at *
      omega
    · have hlen := daysInMonth_eq hm h2 y
      split_ifs <;> simp only [marchYear, marchMonth, Nat.add_sub_cancel] at * <;>
        split_ifs at * <;> simp only [monthStart] at * <;> omega

end

theorem Valid.nextDate (h : Valid y m d) :
    Valid (nextDate y m d).1 (nextDate y m d).2.1 (nextDate y m d).2.2 ∧
      y ≤ (nextDate y m d).1 := by
  obtain ⟨hm, hd⟩ := h
  unfold Time.nextDate Valid
  split_ifs with hlt hmonth
  · exact ⟨⟨hm, Nat.le_add_left .., hlt⟩, le_rfl⟩
  · refine ⟨⟨by dsimp only; omega, le_rfl, ?_⟩, le_rfl⟩
    dsimp only [daysInMonth]
    split_ifs <;> omega
  · exact ⟨by simp [daysInMonth], Nat.le_add_right ..⟩

/-- Every day number is that of a date. -/
theorem exists_days (n : ℕ) : ∃ y m d, Valid y m d ∧ 1970 ≤ y ∧ days y m d = n := by
  induction n with
  | zero => exact ⟨1970, 1, 1, by unfold Valid; decide, le_rfl, rfl⟩
  | succ n ih =>
    obtain ⟨y, m, d, hvalid, hy, rfl⟩ := ih
    obtain ⟨hnext, hle⟩ := hvalid.nextDate
    exact ⟨_, _, _, hnext, hy.trans hle, days_nextDate hvalid hy⟩

/-- Months of the later year lie behind those of the earlier, also when years begin in March. -/
theorem days_lt {y' m' d' : ℕ} (h : Valid y m d) (h' : Valid y' m' d') (hy : 1970 ≤ y)
    (hlt : y < y' ∨ y = y' ∧ (m < m' ∨ m = m' ∧ d < d')) : days y m d < days y' m' d' := by
  obtain ⟨-, hmonth, hyear⟩ := h.inside hy
  have hle := h.le_days hy
  obtain ⟨⟨h1, h12⟩, hd⟩ := h
  obtain ⟨⟨h1', h12'⟩, hd'⟩ := h'
  have hmarch : marchYear y m < marchYear y' m' ∨ marchYear y m = marchYear y' m' ∧
      (marchMonth m < marchMonth m' ∨ marchMonth m = marchMonth m' ∧ d < d') := by
    unfold marchYear marchMonth
    split_ifs <;> omega
  unfold days
  rcases hmarch with hless | ⟨hsame, hless | ⟨hsame', hless⟩⟩
  · have := yearStart_mono (succ_le_of_lt hless)
    rw [succ_eq_add_one] at this
    omega
  · rw [hsame] at hle hyear ⊢
    unfold monthStart at *
    omega
  · rw [hsame, hsame'] at hle ⊢
    omega

theorem checked_eq {α : Type} {steps : List ℤ} {r : α}
    (h : steps.Forall fun z => -2 ^ 31 ≤ z ∧ z < 2 ^ 31) : checked steps r = some r :=
  if_pos (List.forall_iff_forall_mem.mp h)

theorem timeDaysFromCivil_eq (h : Valid y m d) (hy : 1970 ≤ y) (hy' : y ≤ 5000000) :
    timeDaysFromCivil y m d = some (days y m d : ℤ) := by
  have hle := h.le_days hy
  obtain ⟨hmp, hmonth, -⟩ := h.inside hy
  obtain ⟨⟨h1, h12⟩, hd, -⟩ := h
  obtain ⟨Y, hY⟩ : ∃ Y, Y = marchYear y m := ⟨_, rfl⟩
  obtain ⟨p, hp⟩ : ∃ p, p = marchMonth m := ⟨_, rfl⟩
  have hy1 : (y : ℤ) - (if (m : ℤ) ≤ 2 then 1 else 0) = Y := by
    unfold marchYear at hY
    split_ifs at * <;> omega
  have hm1 : (if (m : ℤ) > 2 then (m : ℤ) - 3 else m + 9) = p := by
    unfold marchMonth at hp
    split_ifs at * <;> omega
  obtain ⟨era, yoe, rfl, hyoe⟩ : ∃ era yoe, Y = 400 * era + yoe ∧ yoe < 400 :=
    ⟨Y / 400, Y % 400, by omega, by omega⟩
  have hstart : monthStart (p + 1) ≤ 367 ∧ monthStart p = (153 * p + 2) / 5 := by
    unfold monthStart
    omega
  have hera : ((400 * era + yoe : ℕ) : ℤ).tdiv 400 = era := by
    rw [Int.tdiv_eq_ediv_of_nonneg (by omega)]
    omega
  have hrest : ((400 * era + yoe : ℕ) : ℤ) - era * 400 = yoe := by omega
  unfold timeDaysFromCivil days
  rw [← hY, ← hp] at hle ⊢
  rw [← hp] at hmp hmonth
  dsimp only
  rw [hy1, hm1, if_pos (show ((400 * era + yoe : ℕ) : ℤ) ≥ 0 by omega), hera, hrest,
    Int.tdiv_eq_ediv_of_nonneg (by omega), Int.tdiv_eq_ediv_of_nonneg (by omega),
    Int.tdiv_eq_ediv_of_nonneg (by omega), checked_eq]
  · congr 1
    unfold yearStart at *
    omega
  · simp only [List.Forall]
    omega

variable {z : ℤ} {doe era : ℕ}

theorem unsigned_eq {w : ℕ} (h : 0 ≤ z ∧ z < 2 ^ w) : unsigned w z = z := Int.emod_eq_of_lt h.1 h.2

theorem toInt_eq (h : 0 ≤ z ∧ z < 2 ^ 31) : toInt z = z := by
  rw [toInt, unsigned_eq (by omega), if_pos h.2]

theorem yearOf_cast (h : doe < 146097) :
    unsigned 32 (doe - doe / 1460 + doe / 36524 - doe / 146096 : ℤ) / 365 = yearOf doe := by
  rw [unsigned_eq (by omega), yearOf]
  omega

/-- The steps of `_time_civil_from_days` for a day of the year `yoe` of an era. -/
theorem timeCivilFromDays_march {p : ℕ} (hera : era ≤ 12500) (hyoe : yoe < 400) (hp : p < 12)
    (hd : 1 ≤ d) (hmonth : monthStart p + d ≤ monthStart (p + 1))
    (hdoy : doy + 1 = monthStart p + d) (hdoe : doe = yearStart yoe + doy)
    (hyear : doe < yearStart (yoe + 1)) :
    timeCivilFromDays (146097 * era + doe - 719468) = some ((yoe : ℤ) + era * 400 +
      (if p < 10 then 0 else 1), if p < 10 then (p : ℤ) + 3 else p - 9, (d : ℤ)) := by
  have hlast : doe < 146097 := hyear.trans_le (yearStart_mono (show yoe + 1 ≤ 400 by omega))
  have hyearOf := yearOf_eq hyoe (hdoe ▸ hyear)
  unfold timeCivilFromDays
  dsimp only
  rw [Int.sub_add_cancel, unsigned_eq (by omega),
    show (146097 * (era : ℤ) + doe) / 146097 = era by omega, toInt_eq (by omega),
    show (146097 * (era : ℤ) + doe) - era * 146097 = doe by omega, @unsigned_eq doe 64 (by omega),
    @unsigned_eq doe 32 (by omega), yearOf_cast hlast, hdoe, hyearOf, ← hdoe,
    @toInt_eq (yoe + _) (by omega),
    show (doe : ℤ) - (365 * yoe + yoe / 4 - yoe / 100) = doy by unfold yearStart at hdoe; omega,
    @unsigned_eq doy 32 (by omega), @unsigned_eq (5 * _ + _) 32 (by omega)]
  unfold monthStart at hmonth hdoy
  rw [show (5 * (doy : ℤ) + 2) / 153 = p by omega, @unsigned_eq (153 * _ + _) 32 (by omega),
    show (doy : ℤ) - (153 * p + 2) / 5 + 1 = d by omega, @unsigned_eq d 32 (by omega),
    @toInt_eq d (by omega)]
  by_cases hp10 : p < 10
  · rw [if_pos (show (p : ℤ) < 10 by omega), unsigned_eq (by omega), toInt_eq (by omega),
      if_neg (by omega), checked_eq]
    · simp [hp10]
    · simp only [List.Forall]
      omega
  · rw [if_neg (show ¬ (p : ℤ) < 10 by omega), unsigned_eq (by omega), toInt_eq (by omega),
      if_pos (by omega), checked_eq]
    · simp [hp10]
      rfl
    · simp only [List.Forall]
      omega

theorem yearStart_era (era yoe : ℕ) :
    yearStart (400 * era + yoe) = 146097 * era + yearStart yoe := by
  unfold yearStart
  omega

theorem days_era (hY : marchYear y m = 400 * era + yoe)
    (hle : 719469 ≤ yearStart (marchYear y m) + monthStart (marchMonth m) + d)
    (hdoy : doy + 1 = monthStart (marchMonth m) + d) (hdoe : doe = yearStart yoe + doy) :
    (days y m d : ℤ) = 146097 * era + doe - 719468 := by
  unfold days
  rw [hY, yearStart_era] at hle ⊢
  omega

theorem timeCivilFromDays_eq (h : Valid y m d) (hy : 1970 ≤ y) (hy' : y ≤ 5000000) :
    timeCivilFromDays (days y m d) = some ((y : ℤ), (m : ℤ), (d : ℤ)) := by
  have hle := h.le_days hy
  obtain ⟨hp, hmonth, hyear⟩ := h.inside hy
  obtain ⟨⟨h1, h12⟩, hd, -⟩ := h
  obtain ⟨era, yoe, hY, hyoe⟩ : ∃ era yoe, marchYear y m = 400 * era + yoe ∧ yoe < 400 :=
    ⟨marchYear y m / 400, marchYear y m % 400, by omega, by omega⟩
  have hera : era ≤ 12500 := by
    unfold marchYear at hY
    split_ifs at hY <;> omega
  rw [hY, add_assoc (400 * era), yearStart_era, yearStart_era] at hyear
  obtain ⟨doy, hdoy⟩ : ∃ doy, doy + 1 = monthStart (marchMonth m) + d :=
    ⟨monthStart (marchMonth m) + d - 1, by omega⟩
  rw [days_era hY hle hdoy rfl,
    timeCivilFromDays_march hera hyoe hp hd hmonth hdoy rfl (by omega)]
  unfold marchYear at hY
  unfold marchMonth
  split_ifs at hY ⊢ <;> simp only [some_inj, Prod.mk.injEq, and_true] <;> omega

/-- Day numbers count from 1970-01-01, no `int` operation leaves its type, and the two conversions
are inverse to each other. -/
theorem civil_days_exact : timeDaysFromCivil 1970 1 1 = some 0 ∧
    (∀ y m d : ℕ, Valid y m d → 1970 ≤ y → y ≤ 5000000 → ∃ n : ℕ,
      timeDaysFromCivil y m d = some (n : ℤ) ∧
      timeCivilFromDays n = some ((y : ℤ), (m : ℤ), (d : ℤ)) ∧
      ((nextDate y m d).1 ≤ 5000000 → timeDaysFromCivil (nextDate y m d).1 (nextDate y m d).2.1
        (nextDate y m d).2.2 = some ((n : ℤ) + 1))) ∧
    ∀ last n : ℕ, timeDaysFromCivil 5000000 12 31 = some (last : ℤ) → n ≤ last →
      ∃ y m d : ℕ, Valid y m d ∧ 1970 ≤ y ∧ y ≤ 5000000 ∧
        timeCivilFromDays n = some ((y : ℤ), (m : ℤ), (d : ℤ)) ∧
        timeDaysFromCivil y m d = some (n : ℤ) := by
  refine ⟨by decide, fun y m d h hy hy' => ?_, fun last n hlast hn => ?_⟩
  · refine ⟨days y m d, timeDaysFromCivil_eq h hy hy', timeCivilFromDays_eq h hy hy',
      fun hnext => ?_⟩
    rw [timeDaysFromCivil_eq h.nextDate.1 (hy.trans h.nextDate.2) hnext, days_nextDate h hy]
    rfl
  · obtain ⟨y, m, d, h, hy, rfl⟩ := exists_days n
    have hvalid : Valid 5000000 12 31 := by unfold Valid; decide
    have hy' : y ≤ 5000000 := by
      by_contra hlate
      have hlt := days_lt hvalid h (by decide) (.inl (by omega))
      have heq := (timeDaysFromCivil_eq hvalid (by decide) le_rfl).symm.trans hlast
      rw [some_inj] at heq
      omega
    exact ⟨y, m, d, h, hy, hy', timeCivilFromDays_eq h hy hy', timeDaysFromCivil_eq h hy hy'⟩

end Eras

structure Systime where
  seconds : ℕ
  minutes : ℕ
  hours : ℕ
  dayOfMonth : ℕ
  month : ℕ
  year : ℕ
  deriving DecidableEq

structure Timespec64 where
  sec : ℤ
  nsec : ℤ
  deriving DecidableEq

def timeConvToUnix64 (time : Systime) : Option Timespec64 := do
  let days ← timeDaysFromCivil (toInt time.year) time.month time.dayOfMonth
  let dayHours := days * 86400 + time.hours * 60 * 60
  let sum := dayHours + time.minutes * 60 + time.seconds
  checked [days * 86400, time.hours * 60, time.hours * 60 * 60, time.minutes * 60, dayHours,
    dayHours + time.minutes * 60, sum] ⟨unsigned 64 sum, 0⟩

def timeConvToSystime64 (time : Timespec64) : Option Systime := do
  let unixtime := time.sec
  let (year, month, day) ← timeCivilFromDays (unixtime / (60 * 60 * 24))
  return {
    seconds := (unixtime % 60).toNat
    minutes := (unixtime / 60 % 60).toNat
    hours := (unixtime / (60 * 60) % 24).toNat
    dayOfMonth := (unsigned 8 day).toNat
    month := (unsigned 8 month).toNat
    year := (unsigned 64 year).toNat }

section Conversion
variable {t t' : Systime}

def Systime.Valid (t : Systime) : Prop := Time.Valid t.year t.month t.dayOfMonth ∧
  1970 ≤ t.year ∧ t.year ≤ 9999 ∧ t.hours < 24 ∧ t.minutes < 60 ∧ t.seconds < 60

/-- Seconds since 1970-01-01, without a bound. -/
def unixSeconds (t : Systime) : ℤ :=
  days t.year t.month t.dayOfMonth * 86400 + t.hours * 3600 + t.minutes * 60 + t.seconds

/-- An earlier date, or an earlier time of the same day. -/
def Systime.Before (t t' : Systime) : Prop :=
  (t.year < t'.year ∨ t.year = t'.year ∧ (t.month < t'.month ∨
    t.month = t'.month ∧ t.dayOfMonth < t'.dayOfMonth)) ∨
  (t.year = t'.year ∧ t.month = t'.month ∧ t.dayOfMonth = t'.dayOfMonth) ∧
    (t.hours < t'.hours ∨ t.hours = t'.hours ∧ (t.minutes < t'.minutes ∨
      t.minutes = t'.minutes ∧ t.seconds < t'.seconds))

theorem timeConvToUnix64_eq (h : t.Valid) : timeConvToUnix64 t =
    if unixSeconds t < 2 ^ 31 then some ⟨unixSeconds t, 0⟩ else none := by
  obtain ⟨hdate, hy, hy', -⟩ := h
  unfold timeConvToUnix64 unixSeconds
  have hhours : (t.hours : ℤ) * 60 * 60 = t.hours * 3600 := by ring
  rw [toInt_eq (by omega), timeDaysFromCivil_eq hdate hy (by omega), bind_eq_bind,
    bind_some, hhours]
  split_ifs with hfits
  · rw [checked_eq, unsigned_eq (by omega)]
    simp only [List.Forall]
    omega
  · exact if_neg fun hall => hfits (hall _ (by simp only [List.mem_cons, true_or, or_true])).2

theorem timeConvToSystime64_eq (h : t.Valid) (nsec : ℤ) :
    timeConvToSystime64 ⟨unixSeconds t, nsec⟩ = some t := by
  obtain ⟨hdate, hy, hy', hh, hm, hs⟩ := h
  have hday : unixSeconds t / (60 * 60 * 24) = days t.year t.month t.dayOfMonth := by
    unfold unixSeconds
    omega
  have hd31 : t.dayOfMonth ≤ 31 := hdate.2.2.trans (by unfold daysInMonth; split_ifs <;> omega)
  have hm12 := hdate.1
  unfold timeConvToSystime64
  dsimp only
  rw [hday, timeCivilFromDays_eq hdate hy (by omega)]
  unfold unixSeconds
  obtain ⟨s, mi, h, d, m, y⟩ := t
  simp only [bind_eq_bind, bind_some, pure_def, some_inj,
    Systime.mk.injEq] at *
  rw [@unsigned_eq d 8 (by omega), @unsigned_eq m 8 (by omega), @unsigned_eq y 64 (by omega)]
  exact ⟨by omega, by omega, by omega, by omega, by omega, by omega⟩

theorem unixSeconds_lt (h : t.Valid) (h' : t'.Valid) (hlt : t.Before t') :
    unixSeconds t < unixSeconds t' := by
  obtain ⟨hdate, hy, -, hclock⟩ := h
  unfold unixSeconds
  rcases hlt with hearlier | ⟨⟨hyear, hmonth, hday⟩, htime⟩
  · have := days_lt hdate h'.1 hy hearlier
    omega
  · rw [hyear, hmonth, hday]
    omega

/-- The seconds are exact and convert back exactly up to the largest `int`, 2038-01-19 03:14:07, and
where there are results they grow with the calendar. -/
theorem unix64_exact_iff (h : t.Valid) :
    ((timeConvToUnix64 t = some ⟨unixSeconds t, 0⟩ ∧
      (timeConvToUnix64 t >>= timeConvToSystime64) = some t) ↔ unixSeconds t < 2 ^ 31) ∧
    ∀ t' r r', t'.Valid → t.Before t' → timeConvToUnix64 t = some r →
      timeConvToUnix64 t' = some r' → r.sec < r'.sec := by
  rw [timeConvToUnix64_eq h]
  constructor
  · by_cases hfits : unixSeconds t < 2 ^ 31
    · rw [if_pos hfits]
      rw [bind_eq_bind, bind_some, timeConvToSystime64_eq h]
      exact ⟨fun _ => hfits, fun _ => ⟨rfl, rfl⟩⟩
    · simp only [hfits, if_false, reduceCtorEq, false_and]
  · intro t' r r' h' hlt hr hr'
    rw [timeConvToUnix64_eq h'] at hr'
    split_ifs at hr hr'
    cases hr
    cases hr'
    exact unixSeconds_lt h h' hlt

def lastInt : Systime := ⟨7, 14, 3, 19, 1, 2038⟩

theorem unix64_exact_lastInt : timeConvToUnix64 lastInt = some ⟨2 ^ 31 - 1, 0⟩ :=
  ((unix64_exact_iff (t := lastInt) (by unfold Systime.Valid Valid; decide)).1.mpr (by decide)).1

/-- One second later the sum is no `int`. -/
theorem unix64_overflows : (⟨8, 14, 3, 19, 1, 2038⟩ : Systime).Valid ∧
    unixSeconds ⟨8, 14, 3, 19, 1, 2038⟩ = 2 ^ 31 ∧
    timeConvToUnix64 ⟨8, 14, 3, 19, 1, 2038⟩ = none := by
  unfold Systime.Valid Valid
  decide

end Conversion
end GarnOS.Time
