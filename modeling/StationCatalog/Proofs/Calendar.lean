import Mathlib.Algebra.GroupWithZero.Nat
import StationCatalog.Time.Calendar

/-!
Days and dates. Every day has one date, which is real, and counting up to that date gives the day
back: the year is the last one to begin by then, and the month the last one of the year.
-/

namespace StationCatalog.Date

theorem daysBeforeYear_succ (year : Int) :
    daysBeforeYear (year + 1) = daysBeforeYear year + if isLeap year then 366 else 365 := by
  have leap : isLeap year = true ↔ year % 4 = 0 ∧ (year % 100 ≠ 0 ∨ year % 400 = 0) := by
    simp [isLeap]
  simp only [daysBeforeYear, leap]
  split <;> omega

/-- Four hundred years have 146097 days, and no year begins far from its share of them. -/
theorem daysBeforeYear_bounds (year : Int) :
    146097 * year - 396 ≤ 400 * daysBeforeYear year ∧
      400 * daysBeforeYear year ≤ 146097 * year + 699 := by
  unfold daysBeforeYear
  omega

/-- The guess at the year is at most one off. -/
theorem yearOf_spec (day : Int) :
    daysBeforeYear (yearOf day) ≤ day ∧ day < daysBeforeYear (yearOf day + 1) := by
  have before := daysBeforeYear_bounds (400 * day / 146097 - 1)
  have after := daysBeforeYear_bounds (400 * day / 146097 + 1 + 1)
  simp only [yearOf]
  split
  next early =>
    rw [Int.sub_add_cancel]
    exact ⟨by omega, early⟩
  next started =>
    split
    next late => exact ⟨late, by omega⟩
    next during => exact ⟨Int.not_lt.1 started, Int.not_le.1 during⟩

/-- A day that the months together reach lies within the last month to begin by then. -/
theorem monthAndDay_spec {lengths : List Nat} {n : Nat} (h : n < lengths.sum) :
    ∃ length, lengths[(monthAndDay lengths n).1]? = some length ∧
      (monthAndDay lengths n).2 < length ∧
      (lengths.take (monthAndDay lengths n).1).sum + (monthAndDay lengths n).2 = n := by
  induction lengths generalizing n with
  | nil => exact absurd h (Nat.not_lt_zero n)
  | cons l ls ih =>
      rw [List.sum_cons] at h
      simp only [monthAndDay]
      split
      next within => exact ⟨l, rfl, within, Nat.zero_add n⟩
      next past =>
        obtain ⟨length, found, within, counted⟩ := ih (show n - l < ls.sum by omega)
        refine ⟨length, found, within, ?_⟩
        simp only [List.take_succ_cons, List.sum_cons]
        omega

theorem sum_monthLengths (leap : Bool) :
    (monthLengths leap).sum = if leap then 366 else 365 := by
  cases leap <;> rfl

theorem monthLengths_le (leap : Bool) : ∀ length ∈ monthLengths leap, length ≤ 31 := by
  cases leap <;> decide

/-- The months of a year reach over the days of the year. -/
theorem lt_sum_monthLengths (day : Int) :
    (day - daysBeforeYear (yearOf day)).toNat < (monthLengths (isLeap (yearOf day))).sum := by
  obtain ⟨begun, during⟩ := yearOf_spec day
  rw [daysBeforeYear_succ] at during
  rw [sum_monthLengths]
  split at during
  next leap => rw [if_pos leap]; omega
  next plain => rw [if_neg plain]; omega

theorem isReal_iff {d : Date} : d.isReal = true ↔ 1 ≤ d.month ∧ 1 ≤ d.day ∧
    ∃ length, (monthLengths (isLeap d.year))[d.month - 1]? = some length ∧ d.day ≤ length := by
  simp only [isReal, Bool.and_eq_true, decide_eq_true_eq, Option.any_eq_true, and_assoc]

theorem isReal_ofDay (day : Int) : (ofDay day).isReal = true := by
  obtain ⟨length, found, within, -⟩ :=
    monthAndDay_spec (lt_sum_monthLengths (day + daysBeforeOrigin))
  exact isReal_iff.2 ⟨Nat.succ_pos _, Nat.succ_pos _, length, found, within⟩

/-- A date that a day comes to is counted as that day. -/
theorem toDay_ofDay (day : Int) : (ofDay day).toDay = day := by
  obtain ⟨-, -, -, counted⟩ := monthAndDay_spec (lt_sum_monthLengths (day + daysBeforeOrigin))
  have begun := (yearOf_spec (day + daysBeforeOrigin)).1
  simp only [toDay, ofDay, Nat.add_sub_cancel, ← List.sum_eq_foldl]
  omega

theorem bounds_of_isReal {d : Date} (h : d.isReal = true) : d.month ≤ 12 ∧ d.day ≤ 31 := by
  obtain ⟨hmonth, -, length, found, hday⟩ := isReal_iff.1 h
  obtain ⟨place, -⟩ := List.getElem?_eq_some_iff.1 found
  have longest := monthLengths_le _ length (List.mem_of_getElem? found)
  have twelve : (monthLengths (isLeap d.year)).length = 12 := rfl
  omega

/-- A year is about as far from year 0 as its days are. -/
theorem year_ofDay_bounds (day : Int) :
    146097 * (ofDay day).year ≤ 400 * (day + daysBeforeOrigin) + 396 ∧
      400 * (day + daysBeforeOrigin) ≤ 146097 * ((ofDay day).year + 1) + 699 := by
  obtain ⟨begun, during⟩ := yearOf_spec (day + daysBeforeOrigin)
  have first := daysBeforeYear_bounds (yearOf (day + daysBeforeOrigin))
  have next := daysBeforeYear_bounds (yearOf (day + daysBeforeOrigin) + 1)
  simp only [ofDay]
  omega

end StationCatalog.Date
