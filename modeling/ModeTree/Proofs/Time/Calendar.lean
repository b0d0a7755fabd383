import ModeTree.Time.Calendar
import Mathlib.Tactic.IntervalCases

/-!
# Dates and their days

Every day has one date: the date of a day is a valid one (`isValid_ofDayNumber`) that names this day
(`dayNumber_ofDayNumber`), and no other valid date does (`ofDayNumber_dayNumber`). A day is counted in years that
begin in March: within a cycle the year of a day and its index in the year are found (`yearOfDay_spec`) and are the
only ones (`yearOfDay_eq`), and so are the month in the year and the day in the month.
-/

set_option autoImplicit false

namespace ModeTree.Date

/-- Days of the year of a cycle that begins in March of the year `y`. -/
def yearLength (y : Nat) : Nat := if isLeapYear (y + 1) then 366 else 365

theorem isLeapYear_iff (year : Int) :
    isLeapYear year = true ↔ year % 4 = 0 ∧ (year % 100 ≠ 0 ∨ year % 400 = 0) := by
  simp [isLeapYear]

/-- Leap years come again with the cycle. -/
theorem isLeapYear_cycle (cycle year : Int) : isLeapYear (cycle * 400 + year) = isLeapYear year := by
  rw [Bool.eq_iff_iff, isLeapYear_iff, isLeapYear_iff]
  omega

theorem yearLength_eq_cycle (year : Int) :
    yearLength (year % 400).toNat = if isLeapYear (year + 1) then 366 else 365 := by
  have hyear : ((year % 400).toNat : Int) = year % 400 := Int.toNat_of_nonneg (Int.emod_nonneg _ (by decide))
  have hcycle : year + 1 = year / 400 * 400 + (year % 400 + 1) := by omega
  rw [yearLength, hyear, hcycle, isLeapYear_cycle]

theorem yearLength_eq (y : Nat) :
    yearLength y = if (y + 1) % 4 = 0 ∧ ((y + 1) % 100 ≠ 0 ∨ (y + 1) % 400 = 0) then 366 else 365 := by
  have hleap : isLeapYear (y + 1) = true ↔ (y + 1) % 4 = 0 ∧ ((y + 1) % 100 ≠ 0 ∨ (y + 1) % 400 = 0) := by
    rw [isLeapYear_iff]
    omega
  simp only [yearLength, hleap]

/-! ## Years -/

/-- Days of a cycle before a year, given by its century, by the four years in that and by the year in those. -/
theorem daysBeforeYear_parts {century four one : Nat} (hfour : four ≤ 24) (hone : one ≤ 3) :
    daysBeforeYear (100 * century + 4 * four + one) = 36524 * century + 1461 * four + 365 * one := by
  rw [daysBeforeYear]
  omega

/-- The last year of four is a leap year, unless these are the last of a century that is not the last one. -/
theorem yearLength_parts {century four one : Nat} (hcentury : century ≤ 3) (hfour : four ≤ 24) (hone : one ≤ 3) :
    yearLength (100 * century + 4 * four + one) =
      if one = 3 ∧ (four = 24 → century = 3) then 366 else 365 := by
  rw [yearLength_eq]
  congr 1
  rw [eq_iff_iff]
  omega

/-- The year of a day of a cycle, and the index of the day in that year. -/
theorem yearOfDay_spec {n : Nat} (h : n < cycleDays) :
    (yearOfDay n).1 < 400 ∧ (yearOfDay n).2 < yearLength (yearOfDay n).1 ∧
      daysBeforeYear (yearOfDay n).1 + (yearOfDay n).2 = n := by
  rw [cycleDays] at h
  obtain ⟨century, hc⟩ : ∃ c, c = min 3 (n / 36524) := ⟨_, rfl⟩
  obtain ⟨four, hf⟩ : ∃ f, f = (n - 36524 * century) / 1461 := ⟨_, rfl⟩
  obtain ⟨one, ho⟩ : ∃ o, o = min 3 ((n - 36524 * century - 1461 * four) / 365) := ⟨_, rfl⟩
  have hyear : yearOfDay n = (100 * century + 4 * four + one, n - 36524 * century - 1461 * four - 365 * one) := by
    simp only [yearOfDay, ← hc, ← hf, ← ho]
  have hcentury : century ≤ 3 := by omega
  have hfour : four ≤ 24 := by omega
  have hone : one ≤ 3 := by omega
  simp only [hyear, daysBeforeYear_parts hfour hone, yearLength_parts hcentury hfour hone]
  refine ⟨by omega, ?_, by omega⟩
  split <;> omega

/-- A year and a day in it are found from the day of the cycle. -/
theorem yearOfDay_eq {y d : Nat} (hy : y < 400) (hd : d < yearLength y) :
    yearOfDay (daysBeforeYear y + d) = (y, d) := by
  obtain ⟨century, hc⟩ : ∃ c, c = y / 100 := ⟨_, rfl⟩
  obtain ⟨four, hf⟩ : ∃ f, f = y % 100 / 4 := ⟨_, rfl⟩
  obtain ⟨one, ho⟩ : ∃ o, o = y % 4 := ⟨_, rfl⟩
  have hcentury : century ≤ 3 := by omega
  have hfour : four ≤ 24 := by omega
  have hone : one ≤ 3 := by omega
  obtain rfl : 100 * century + 4 * four + one = y := by omega
  clear hc hf ho
  rw [yearLength_parts hcentury hfour hone] at hd
  rw [daysBeforeYear_parts hfour hone]
  have hd' : d < 365 ∨ (d = 365 ∧ one = 3 ∧ (four = 24 → century = 3)) := by
    split at hd <;> omega
  have hc : min 3 ((36524 * century + 1461 * four + 365 * one + d) / 36524) = century := by omega
  have hf : (36524 * century + 1461 * four + 365 * one + d - 36524 * century) / 1461 = four := by omega
  have ho :
      min 3 ((36524 * century + 1461 * four + 365 * one + d - 36524 * century - 1461 * four) / 365) = one := by
    omega
  simp only [yearOfDay, hc, hf, ho]
  congr 1
  omega

/-- The days of all years of a cycle are days of the cycle. -/
theorem day_lt_cycleDays {y d : Nat} (hy : y < 400) (hd : d < yearLength y) :
    daysBeforeYear y + d < cycleDays := by
  rw [yearLength_eq] at hd
  rw [daysBeforeYear, cycleDays]
  split at hd <;> omega

/-! ## Months -/

/-- Days of the month with the index `m` of the year that begins in March. -/
def monthLength (year : Int) (m : Nat) : Nat :=
  if m = 11 then (if isLeapYear (year + 1) then 29 else 28) else daysBeforeMonth (m + 1) - daysBeforeMonth m

/-- The date with the index `d` in the month with the index `m` of the year that begins in March. -/
def ofMarch (year : Int) (m d : Nat) : Date :=
  ⟨if m < 10 then year else year + 1, if m < 10 then m + 3 else m - 9, d + 1⟩

/-- The day of such a date. -/
def marchDay (year : Int) (m d : Nat) : Int :=
  year / 400 * cycleDays + daysBeforeYear (year % 400).toNat + daysBeforeMonth m + d - epochOffset

/-- The month of a day of a year, and the index of the day in that month. -/
theorem monthOfDay_spec {year : Int} {n : Nat} (h : n < yearLength (year % 400).toNat) :
    (5 * n + 2) / 153 ≤ 11 ∧ n - daysBeforeMonth ((5 * n + 2) / 153) < monthLength year ((5 * n + 2) / 153) ∧
      daysBeforeMonth ((5 * n + 2) / 153) + (n - daysBeforeMonth ((5 * n + 2) / 153)) = n := by
  rw [yearLength_eq_cycle] at h
  simp only [monthLength, daysBeforeMonth]
  refine ⟨by split at h <;> omega, ?_, by omega⟩
  split
  · split at h <;> simp_all <;> omega
  · omega

/-- A month and a day in it are found from the day of the year. -/
theorem monthOfDay_eq {year : Int} {m d : Nat} (hm : m ≤ 11) (hd : d < monthLength year m) :
    daysBeforeMonth m + d < yearLength (year % 400).toNat ∧ (5 * (daysBeforeMonth m + d) + 2) / 153 = m := by
  rw [yearLength_eq_cycle]
  simp only [monthLength, daysBeforeMonth] at hd ⊢
  cases hleap : isLeapYear (year + 1) <;> simp only [hleap] at hd <;> interval_cases m <;> simp at hd ⊢ <;> omega

/-! ## Dates -/

/-- Months and days have two digits. -/
theorem IsValid.lt_hundred {d : Date} (h : d.IsValid) : d.month < 100 ∧ d.day < 100 := by
  obtain ⟨-, hmonth, -, hday⟩ := h
  simp only [daysInMonth] at hday
  refine ⟨by omega, ?_⟩
  split at hday <;> split at hday <;> omega

theorem isValid_ofMarch {year : Int} {m d : Nat} (hm : m ≤ 11) (hd : d < monthLength year m) :
    (ofMarch year m d).IsValid := by
  simp only [IsValid, ofMarch, daysInMonth, monthLength, daysBeforeMonth] at hd ⊢
  -- February, the last month, is the only one whose length depends on the year
  interval_cases m <;> simp at hd ⊢ <;> omega

/-- Every date of the calendar is in a month of a year that begins in March. -/
theorem exists_ofMarch {d : Date} (h : d.IsValid) :
    ∃ year m n, m ≤ 11 ∧ n < monthLength year m ∧ d = ofMarch year m n := by
  obtain ⟨year, month, day⟩ := d
  obtain ⟨hfirst, hlast, hday, hlength⟩ := h
  dsimp only at hfirst hlast hday hlength
  refine ⟨if month ≤ 2 then year - 1 else year, (month + 9) % 12, day - 1, by omega, ?_, ?_⟩
  · simp only [daysInMonth, monthLength, daysBeforeMonth] at hlength ⊢
    interval_cases month <;> simp at hlength ⊢ <;> omega
  · simp only [ofMarch, mk.injEq]
    refine ⟨?_, ?_, by omega⟩
    · split <;> split <;> omega
    · split <;> omega

theorem dayNumber_ofMarch {m : Nat} (hm : m ≤ 11) (year : Int) (d : Nat) :
    (ofMarch year m d).dayNumber = marchDay year m d := by
  have hyear : (if (ofMarch year m d).month ≤ 2 then (ofMarch year m d).year - 1 else (ofMarch year m d).year) =
      year := by
    simp only [ofMarch]
    split <;> split <;> omega
  have hmonth : ((ofMarch year m d).month + 9) % 12 = m := by
    simp only [ofMarch]
    split <;> omega
  rw [dayNumber, marchDay, hyear, hmonth]
  simp only [ofMarch]
  omega

/-- Every day is in a month of a year that begins in March. -/
theorem exists_marchDay (n : Int) : ∃ year m d, m ≤ 11 ∧ d < monthLength year m ∧ n = marchDay year m d := by
  obtain ⟨cycle, hcycle⟩ : ∃ c, c = (n + epochOffset) / cycleDays := ⟨_, rfl⟩
  obtain ⟨k, hk⟩ : ∃ k, k = ((n + epochOffset) % cycleDays).toNat := ⟨_, rfl⟩
  have hn : n = cycle * cycleDays + k - epochOffset := by
    rw [cycleDays] at hcycle hk ⊢
    omega
  have hlt : k < cycleDays := by
    rw [cycleDays] at hk ⊢
    omega
  obtain ⟨hyear, hday, hsum⟩ := yearOfDay_spec hlt
  have hyearOf : ((cycle * 400 + (yearOfDay k).1) % 400).toNat = (yearOfDay k).1 := by omega
  rw [← hyearOf] at hday
  obtain ⟨hmonth, hlength, hdays⟩ := monthOfDay_spec hday
  refine ⟨cycle * 400 + (yearOfDay k).1, _, _, hmonth, hlength, ?_⟩
  have hcycleOf : (cycle * 400 + ((yearOfDay k).1 : Int)) / 400 = cycle := by omega
  rw [marchDay, hyearOf, hcycleOf]
  omega

theorem ofDayNumber_marchDay {year : Int} {m d : Nat} (hm : m ≤ 11) (hd : d < monthLength year m) :
    ofDayNumber (marchDay year m d) = ofMarch year m d := by
  obtain ⟨hday, hmonth⟩ := monthOfDay_eq hm hd
  have hyearOf : (year % 400).toNat < 400 := by omega
  have hbefore := day_lt_cycleDays hyearOf hday
  have hcycle : (marchDay year m d + epochOffset) / cycleDays = year / 400 := by
    rw [marchDay]
    rw [cycleDays] at hbefore ⊢
    omega
  have hdayOf : ((marchDay year m d + epochOffset) % cycleDays).toNat =
      daysBeforeYear (year % 400).toNat + (daysBeforeMonth m + d) := by
    rw [marchDay]
    rw [cycleDays] at hbefore ⊢
    omega
  simp only [ofDayNumber, hcycle, hdayOf, yearOfDay_eq hyearOf hday, hmonth, ofMarch, mk.injEq]
  refine ⟨?_, trivial, by omega⟩
  split <;> split <;> omega

/-- The date of a day is a date of the calendar. -/
theorem isValid_ofDayNumber (n : Int) : (ofDayNumber n).IsValid := by
  obtain ⟨year, m, d, hm, hd, rfl⟩ := exists_marchDay n
  rw [ofDayNumber_marchDay hm hd]
  exact isValid_ofMarch hm hd

/-- The date of a day names that day. -/
theorem dayNumber_ofDayNumber (n : Int) : (ofDayNumber n).dayNumber = n := by
  obtain ⟨year, m, d, hm, hd, rfl⟩ := exists_marchDay n
  rw [ofDayNumber_marchDay hm hd, dayNumber_ofMarch hm]

/-- A date of the calendar is the date of the day that it names. -/
theorem ofDayNumber_dayNumber {d : Date} (h : d.IsValid) : ofDayNumber d.dayNumber = d := by
  obtain ⟨year, m, n, hm, hn, rfl⟩ := exists_ofMarch h
  rw [dayNumber_ofMarch hm, ofDayNumber_marchDay hm hn]

end ModeTree.Date
