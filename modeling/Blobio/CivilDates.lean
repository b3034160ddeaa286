import Mathlib.Algebra.Order.Ring.Int

/-! Dates of the Gregorian calendar, counted in days. -/
namespace CivilDates

def is_leap (year : ℕ) : Bool :=
  year % 4 = 0 && (year % 100 ≠ 0 || year % 400 = 0)

def days_in (month year : ℕ) : ℕ :=
  if month = 2 then if is_leap year then 29 else 28
  else if month = 4 ∨ month = 6 ∨ month = 9 ∨ month = 11 then 30
  else 31

def days_of_year (year : ℕ) : ℕ :=
  if is_leap year then 366 else 365

/-- The span that a day falls into, of the next `n` that follow each other, and the day's
place in it. -/
def locate (len : ℕ → ℕ) : ℕ → ℕ → ℕ → ℕ × ℕ
  | 0, i, d => (i, d)
  | n + 1, i, d => if d < len i then (i, d) else locate len n (i + 1) (d - len i)

structure Date where
  year : ℤ
  month : ℕ
  day : ℕ
  deriving DecidableEq

/-- The year of a cycle of 400 years, the first of them the year 2000, and the day in it. -/
def year_of (days : ℤ) : ℕ × ℕ :=
  locate days_of_year 400 0 (days % 146097).toNat

def month_of (days : ℤ) : ℕ × ℕ :=
  locate (days_in · (year_of days).1) 12 1 (year_of days).2

/-- The date so many days after the first of January of the year 2000. -/
def date_of_days (days : ℤ) : Date where
  year := 2000 + 400 * (days / 146097) + (year_of days).1
  month := (month_of days).1
  day := (month_of days).2 + 1

example : date_of_days 8825 = ⟨2024, 2, 29⟩ := by decide +kernel

theorem locate_lt {len : ℕ → ℕ} {n i d : ℕ} (h : d < ((List.range' i n).map len).sum) :
    i ≤ (locate len n i d).1 ∧ (locate len n i d).1 < i + n ∧
      (locate len n i d).2 < len (locate len n i d).1 := by
  induction n generalizing i d with
  | zero => exact absurd h (Nat.not_lt_zero d)
  | succ n ih =>
    rw [List.range'_succ, List.map_cons, List.sum_cons] at h
    rw [locate]
    split
    · exact ⟨Nat.le_refl i, by omega, ‹_›⟩
    · have hnext := @ih (i + 1) (d - len i) (by omega)
      omega

theorem cycle_days : ((List.range' 0 400).map days_of_year).sum = 146097 := by
  decide +kernel

theorem year_days (year : ℕ) : ((List.range' 1 12).map (days_in · year)).sum = days_of_year year := by
  cases h : is_leap year <;> simp [days_in, days_of_year, h, List.range'_succ]

theorem year_of_lt (days : ℤ) :
    (year_of days).1 < 400 ∧ (year_of days).2 < days_of_year (year_of days).1 := by
  have hlt : (days % 146097).toNat < ((List.range' 0 400).map days_of_year).sum := by
    rw [cycle_days]
    omega
  obtain ⟨-, hyear, hday⟩ := locate_lt hlt
  exact ⟨Nat.zero_add 400 ▸ hyear, hday⟩

theorem month_of_lt (days : ℤ) : 1 ≤ (month_of days).1 ∧ (month_of days).1 ≤ 12 ∧
    (month_of days).2 < days_in (month_of days).1 (year_of days).1 := by
  have hlt := (year_of_lt days).2
  rw [← year_days] at hlt
  obtain ⟨hlower, hupper, hday⟩ := locate_lt hlt
  exact ⟨hlower, Nat.le_of_lt_succ hupper, hday⟩

theorem days_in_le (month year : ℕ) : days_in month year ≤ 31 := by
  unfold days_in
  split <;> split <;> omega

theorem le_locate (len : ℕ → ℕ) (n i d : ℕ) : i ≤ (locate len n i d).1 := by
  induction n generalizing i d with
  | zero => exact Nat.le_refl i
  | succ n ih =>
    rw [locate]
    split
    · exact Nat.le_refl i
    · exact Nat.le_of_succ_le (ih (i + 1) (d - len i))

/-- The spans before it and the place in it make up the day again. -/
theorem locate_sum (len : ℕ → ℕ) (n i d : ℕ) :
    ((List.range' i ((locate len n i d).1 - i)).map len).sum + (locate len n i d).2 = d := by
  induction n generalizing i d with
  | zero => simp [locate]
  | succ n ih =>
    rw [locate]
    split_ifs with hlt
    · simp
    · have hnext := ih (i + 1) (d - len i)
      obtain ⟨k, hk⟩ := Nat.exists_eq_add_of_le (le_locate len n (i + 1) (d - len i))
      rw [hk, Nat.add_sub_cancel_left] at hnext
      rw [hk, Nat.add_assoc, Nat.add_sub_cancel_left, Nat.add_comm 1 k, List.range'_succ, List.map_cons,
        List.sum_cons]
      omega

theorem locate_injective {len : ℕ → ℕ} {n i d d' : ℕ} (h : locate len n i d = locate len n i d') : d = d' := by
  rw [← locate_sum len n i d, ← locate_sum len n i d', h]

/-- A date is that of one day only. -/
theorem date_of_days_injective {days days' : ℤ} (h : date_of_days days = date_of_days days') : days = days' := by
  obtain ⟨hyear, hmonth, hday⟩ := Date.mk.inj h
  have hlt := (year_of_lt days).1
  have hlt' := (year_of_lt days').1
  have hfirst : (year_of days).1 = (year_of days').1 := by omega
  have hplace : month_of days = month_of days' := Prod.ext hmonth (Nat.succ_injective hday)
  have hsecond : (year_of days).2 = (year_of days').2 := by
    rw [month_of, month_of, hfirst] at hplace
    exact locate_injective hplace
  have hcycle : (days % 146097).toNat = (days' % 146097).toNat := locate_injective (Prod.ext hfirst hsecond)
  omega

end CivilDates
