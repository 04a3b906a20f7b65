import StationCatalog.Proofs.UuidOrder

/-!
What is written in digits reads back: numbers of a fixed width, alone or at the front of a text,
and UUIDs.
-/

namespace StationCatalog

namespace Digits

theorem toNat_ofValue : ∀ v < 16, (ofValue v).toNat = if v < 10 then 48 + v else 87 + v := by
  decide

theorem value?_ofValue {base v : Nat} (digits : base ≤ 16) (h : v < base) :
    value? base (ofValue v) = some v := by
  have code := toNat_ofValue v (Nat.lt_of_lt_of_le h digits)
  by_cases small : v < 10
  · rw [if_pos small] at code
    have numeral : 48 ≤ 48 + v ∧ 48 + v ≤ 57 := by omega
    simp only [value?, code, numeral, and_self, if_true, Nat.add_sub_cancel_left, h]
  · rw [if_neg small] at code
    have numeral : ¬(48 ≤ 87 + v ∧ 87 + v ≤ 57) := by omega
    have letter : 97 ≤ 87 + v ∧ 87 + v ≤ 102 := by omega
    simp only [value?, code, numeral, letter, and_self, if_false, if_true,
      Nat.add_sub_cancel_left, h]

theorem read?_concat (base : Nat) (cs : List Char) (c : Char) :
    read? base (cs ++ [c]) = (read? base cs).bind fun n => (value? base c).map (n * base + ·) := by
  simp [read?, List.foldlM_append]

/-- A number written in as many digits as it takes reads back. -/
theorem read?_fixed {base width n : Nat} (positive : 0 < base) (digits : base ≤ 16)
    (h : n < base ^ width) : read? base (fixed base width n) = some n := by
  induction width generalizing n with
  | zero =>
      obtain rfl : n = 0 := Nat.lt_one_iff.1 h
      rfl
  | succ width ih =>
      have above : n / base < base ^ width :=
        Nat.div_lt_of_lt_mul (by rwa [Nat.pow_succ, Nat.mul_comm] at h)
      rw [fixed, read?_concat, ih above, value?_ofValue digits (Nat.mod_lt n positive)]
      simp only [Option.bind_some, Option.map_some, Nat.div_add_mod']

theorem isDecimal_of_mem_fixed {width n : Nat} : ∀ c ∈ fixed 10 width n, isDecimal c = true := by
  intro c hc
  obtain ⟨v, hv, rfl⟩ := exists_of_mem_fixed (by decide) hc
  rw [isDecimal, value?_ofValue (by decide) hv]
  rfl

/-- Digits of a known width read back from the front of a text. -/
theorem readFixed?_fixed {width n : Nat} (h : n < 10 ^ width) (rest : List Char) :
    readFixed? width (fixed 10 width n ++ rest) = some (n, rest) := by
  have front : (fixed 10 width n ++ rest).take width = fixed 10 width n :=
    List.take_left' (length_fixed ..)
  have back : (fixed 10 width n ++ rest).drop width = rest := List.drop_left' (length_fixed ..)
  rw [readFixed?, front, back, if_pos (length_fixed ..), read?_fixed (by decide) (by decide) h]
  rfl

/-- A run of digits ends where something else begins. -/
theorem takeWhile_fixed (width n : Nat) (rest : List Char) {c : Char}
    (other : isDecimal c = false) :
    (fixed 10 width n ++ c :: rest).takeWhile isDecimal = fixed 10 width n ∧
      (fixed 10 width n ++ c :: rest).dropWhile isDecimal = c :: rest := by
  rw [List.takeWhile_append_of_pos isDecimal_of_mem_fixed,
    List.dropWhile_append_of_pos isDecimal_of_mem_fixed, List.takeWhile_cons, List.dropWhile_cons,
    other]
  exact ⟨List.append_nil _, rfl⟩

end Digits

namespace Uuid

theorem length_hyphenate {ds : List Char} (h : ds.length = 32) : (hyphenate ds).length = 36 := by
  simp [hyphenate, h]

theorem toLower_of_isLowerHex {c : Char} (h : isLowerHex c = true) : c.toLower = c := by
  have lower : ∀ v < 16, (Digits.ofValue v).toLower = Digits.ofValue v := by decide
  obtain ⟨v, hv, rfl⟩ := exists_ofValue h
  exact lower v hv

/-- A canonical text is as long as a hyphenated one, and none of it is in upper case. -/
theorem ofText?_text (u : Uuid) : ofText? u.text = some u := by
  have canonical := u.canonical
  simp only [isCanonical, Bool.and_eq_true, beq_iff_eq, List.all_eq_true] at canonical
  obtain ⟨⟨length, hex⟩, whole⟩ := canonical
  have width : u.text.toList.length = 36 := by
    rw [whole]
    exact length_hyphenate length
  have lower : u.text.toList.map Char.toLower = u.text.toList := by
    have same : ∀ c ∈ u.text.toList, c.toLower = id c := by
      intro c hc
      by_cases hyphen : c = '-'
      · subst hyphen
        rfl
      · exact toLower_of_isLowerHex (hex c (List.mem_filter.2 ⟨hc, bne_iff_ne.2 hyphen⟩))
    rw [List.map_congr_left same, List.map_id]
  simp only [ofText?, width, lower, ofChars?, u.canonical, dif_pos, String.ofList_toList]

end Uuid

end StationCatalog
