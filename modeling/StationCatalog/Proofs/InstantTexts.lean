import Mathlib.Data.Option.Basic
import StationCatalog.Proofs.Calendar
import StationCatalog.Proofs.WrittenDigits
import StationCatalog.Time.Text

/-!
The text of an instant reads back as that instant. Each part of it is read from the front of what
follows: the year with its sign, the date, the time of day with its fraction.
-/

namespace StationCatalog.Instant

open Digits

/-! ### Dates -/

theorem readSignedYear?_fixed {negative : Bool} {width n : Nat} (rest : List Char)
    (wide : 4 ≤ width) (fits : n < 10 ^ width)
    (signed : if negative then 0 < n else 9999 < n) :
    readSignedYear? negative (fixed 10 width n ++ '-' :: rest) =
      some (if negative then -(n : Int) else n, '-' :: rest) := by
  obtain ⟨front, back⟩ := takeWhile_fixed width n rest (c := '-') rfl
  simp only [readSignedYear?, front, back, read?_fixed (by decide) (by decide) fits]
  cases negative with
  | false =>
      have large : 9999 < n := signed
      simp [wide, large]
  | true =>
      have positive : 0 < n := signed
      simp [wide, positive]

theorem readYear?_of_decimal {c : Char} (h : isDecimal c = true) (cs : List Char) :
    readYear? (c :: cs) = (readFixed? 4 (c :: cs)).map fun (n, rest) => ((n : Int), rest) := by
  unfold readYear?
  split
  next minus =>
    obtain ⟨rfl, -⟩ := List.cons.inj minus
    exact absurd h (by decide)
  next plus =>
    obtain ⟨rfl, -⟩ := List.cons.inj plus
    exact absurd h (by decide)
  next => rfl

/-- Any year of the time line is written in at least as many digits as it takes. -/
theorem exists_yearText {year : Int} (h : year.natAbs < 1000000) :
    ∃ width, 4 ≤ width ∧ year.natAbs < 10 ^ width ∧
      yearText year = if year < 0 then '-' :: fixed 10 width year.natAbs
        else if year.natAbs < 10000 then fixed 10 4 year.natAbs
        else '+' :: fixed 10 width year.natAbs := by
  by_cases short : year.natAbs < 10000
  · exact ⟨4, Nat.le_refl 4, short, by simp only [yearText, short, if_true]⟩
  · by_cases middle : year.natAbs < 100000
    · exact ⟨5, by decide, middle, by simp only [yearText, short, middle, if_true, if_false]⟩
    · exact ⟨6, by decide, h, by simp only [yearText, short, middle, if_false]⟩

theorem readYear?_yearText {year : Int} (h : year.natAbs < 1000000) (rest : List Char) :
    readYear? (yearText year ++ '-' :: rest) = some (year, '-' :: rest) := by
  obtain ⟨width, wide, fits, written⟩ := exists_yearText h
  rw [written]
  split
  next negative =>
    have positive : 0 < year.natAbs := Int.natAbs_pos.2 (Int.ne_of_lt negative)
    rw [List.cons_append, readYear?, readSignedYear?_fixed rest wide fits (by rwa [if_pos rfl]),
      if_pos rfl, ← Int.eq_neg_natAbs_of_nonpos (Int.le_of_lt negative)]
  next positive =>
    have same : (year.natAbs : Int) = year := Int.natAbs_of_nonneg (Int.not_lt.1 positive)
    split
    next short =>
      have read := readFixed?_fixed (show year.natAbs < 10 ^ 4 from short) ('-' :: rest)
      obtain ⟨c, cs, digits⟩ : ∃ c cs, fixed 10 4 year.natAbs = c :: cs := ⟨_, _, rfl⟩
      have decimal : isDecimal c = true :=
        isDecimal_of_mem_fixed c (digits ▸ List.mem_cons_self)
      rw [digits] at read ⊢
      rw [List.cons_append, readYear?_of_decimal decimal, ← List.cons_append, read]
      simp only [Option.map_some, same]
    next long =>
      rw [List.cons_append, readYear?, readSignedYear?_fixed rest wide fits
        (by rw [if_neg Bool.false_ne_true]; omega), if_neg Bool.false_ne_true, same]

theorem expect?_cons (c : Char) (rest : List Char) : expect? c (c :: rest) = some rest := if_pos rfl

theorem readDate?_dateText {d : Date} (real : d.isReal = true) (h : d.year.natAbs < 1000000)
    (rest : List Char) : readDate? (dateText d ++ rest) = some (d, rest) := by
  obtain ⟨hmonth, hday⟩ := Date.bounds_of_isReal real
  have month := fun rest => readFixed?_fixed (show d.month < 10 ^ 2 by omega) rest
  have day := fun rest => readFixed?_fixed (show d.day < 10 ^ 2 by omega) rest
  have parts : dateText d ++ rest = yearText d.year ++
      '-' :: (fixed 10 2 d.month ++ '-' :: (fixed 10 2 d.day ++ rest)) := by
    simp only [dateText, List.append_assoc, List.cons_append]
  simp [readDate?, parts, readYear?_yearText h, expect?_cons, month, day, real]

/-! ### Times of day -/

theorem readFraction?_fixed {width n : Nat} (least : 1 ≤ width) (most : width ≤ 9)
    (fits : n < 10 ^ width) {c : Char} (other : isDecimal c = false) (rest : List Char) :
    readFraction? ('.' :: fixed 10 width n ++ c :: rest) =
      some (n * 10 ^ (9 - width), c :: rest) := by
  obtain ⟨front, back⟩ := takeWhile_fixed width n rest other
  simp only [List.cons_append, readFraction?, front, back,
    read?_fixed (by decide) (by decide) fits]
  simp [least, most]

/-- The digits that a fraction leaves out are zeros. -/
theorem readFraction?_fractionText {n : Nat} (h : n < 1000000000) (rest : List Char) :
    readFraction? (fractionText n ++ 'Z' :: rest) = some (n, 'Z' :: rest) := by
  unfold fractionText
  split
  next none => rw [none]; rfl
  next =>
    split
    next millis =>
      have same : n / 1000000 * 10 ^ (9 - 3) = n :=
        Nat.div_mul_cancel (Nat.dvd_of_mod_eq_zero millis)
      rw [readFraction?_fixed (by decide) (by decide) (by omega) rfl, same]
    next =>
      split
      next micros =>
        have same : n / 1000 * 10 ^ (9 - 6) = n :=
          Nat.div_mul_cancel (Nat.dvd_of_mod_eq_zero micros)
        rw [readFraction?_fixed (by decide) (by decide) (by omega) rfl, same]
      next =>
        have same : n * 10 ^ (9 - 9) = n := Nat.mul_one n
        rw [readFraction?_fixed (by decide) (by decide) h rfl, same]

theorem readClock?_clockText {n : Nat} (h : n < 86400000000000) (rest : List Char) :
    readClock? (clockText n ++ 'Z' :: rest) = some (n, 'Z' :: rest) := by
  have hour := fun rest =>
    readFixed?_fixed (show n / 1000000000 / 3600 < 10 ^ 2 by omega) rest
  have minute := fun rest =>
    readFixed?_fixed (show n / 1000000000 / 60 % 60 < 10 ^ 2 by omega) rest
  have second := fun rest =>
    readFixed?_fixed (show n / 1000000000 % 60 < 10 ^ 2 by omega) rest
  have fraction :=
    readFraction?_fractionText (Nat.mod_lt n (by decide : 0 < 1000000000)) rest
  have parts : clockText n ++ 'Z' :: rest = fixed 10 2 (n / 1000000000 / 3600) ++
      ':' :: (fixed 10 2 (n / 1000000000 / 60 % 60) ++
        ':' :: (fixed 10 2 (n / 1000000000 % 60) ++
          (fractionText (n % 1000000000) ++ 'Z' :: rest))) := by
    simp only [clockText, List.append_assoc, List.cons_append]
  have valid : n / 1000000000 / 3600 < 24 ∧ n / 1000000000 / 60 % 60 < 60 ∧
      n / 1000000000 % 60 < 60 := by omega
  have total : ((n / 1000000000 / 3600 * 60 + n / 1000000000 / 60 % 60) * 60 +
      n / 1000000000 % 60) * 1000000000 + n % 1000000000 = n := by omega
  simp [readClock?, parts, hour, minute, second, fraction, expect?_cons, valid, total]

/-! ### Instants -/

/-- The years of the time line take no more than six digits. -/
theorem natAbs_year_lt (t : Instant) : (Date.ofDay (t.nanos / dayNanos)).year.natAbs < 1000000 := by
  have year := Date.year_ofDay_bounds (t.nanos / dayNanos)
  have lower := t.first_le
  have upper := t.le_last
  simp only [dayNanos, Date.daysBeforeOrigin] at *
  omega

theorem ofText?_text (t : Instant) : ofText? (t.text .zulu) = some t := by
  have date := readDate?_dateText (Date.isReal_ofDay (t.nanos / dayNanos)) t.natAbs_year_lt
  have clock := readClock?_clockText (n := (t.nanos % dayNanos).toNat)
    (by simp only [dayNanos]; omega) []
  have parts : t.chars .zulu = dateText (Date.ofDay (t.nanos / dayNanos)) ++
      'T' :: (clockText (t.nanos % dayNanos).toNat ++ ['Z']) := by
    simp only [chars, Style.zulu, List.append_assoc, List.cons_append]
  have counted : (Date.ofDay (t.nanos / dayNanos)).toDay * dayNanos + (t.nanos % dayNanos).toNat =
      t.nanos := by
    rw [Date.toDay_ofDay]
    simp only [dayNanos]
    omega
  have zone : Style.zulu.zone = ['Z'] := rfl
  generalize (t.nanos % dayNanos).toNat = n at parts clock counted
  rw [ofText?, text, String.toList_ofList, ofChars?, parts]
  simp [date, clock, expect?_cons, zone, counted, ofNanos?_nanos]

end StationCatalog.Instant
