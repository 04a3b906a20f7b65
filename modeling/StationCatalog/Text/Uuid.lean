import StationCatalog.Text.Digits

/-!
UUIDs in canonical text: 32 lower-case hexadecimal digits, hyphenated as 8-4-4-4-12. Canonical
texts are in the order of the bytes they stand for, and each UUID has one.
-/

namespace StationCatalog

namespace Uuid

def isLowerHex (c : Char) : Bool := '0' ≤ c && c ≤ '9' || 'a' ≤ c && c ≤ 'f'

/-- Cuts a run of digits into groups of 8, 4, 4, 4 and the rest, joined by hyphens. -/
def hyphenate (ds : List Char) : List Char :=
  ds.take 8 ++ '-' :: (ds.drop 8).take 4 ++ '-' :: (ds.drop 12).take 4
    ++ '-' :: (ds.drop 16).take 4 ++ '-' :: ds.drop 20

def isCanonical (cs : List Char) : Bool :=
  let ds := cs.filter (· != '-')
  ds.length == 32 && ds.all isLowerHex && cs == hyphenate ds

/-- Hyphenation adds hyphens and nothing else. -/
theorem filter_hyphenate {ds : List Char} (h : ∀ c ∈ ds, (c != '-') = true) :
    (hyphenate ds).filter (· != '-') = ds := by
  have keep : ∀ xs : List Char, (∀ c ∈ xs, c ∈ ds) → xs.filter (· != '-') = xs :=
    fun xs hxs => List.filter_eq_self.2 fun c hc => h c (hxs c hc)
  have split (n m : Nat) : (ds.drop n).take m ++ ds.drop (n + m) = ds.drop n := by
    rw [← List.drop_drop, List.take_append_drop]
  simp only [hyphenate, List.filter_append, List.filter_cons, List.append_assoc,
    List.cons_append, bne_self_eq_false, Bool.false_eq_true, if_false]
  rw [keep _ fun _ => List.mem_of_mem_take,
    keep _ fun _ hc => List.mem_of_mem_drop (List.mem_of_mem_take hc),
    keep _ fun _ hc => List.mem_of_mem_drop (List.mem_of_mem_take hc),
    keep _ fun _ hc => List.mem_of_mem_drop (List.mem_of_mem_take hc),
    keep _ fun _ => List.mem_of_mem_drop, split 16 4, split 12 4, split 8 4, List.take_append_drop]

/-- Thirty-two lower-case hexadecimal digits have a canonical text. -/
theorem isCanonical_hyphenate {ds : List Char} (length : ds.length = 32)
    (hex : ∀ c ∈ ds, isLowerHex c = true) : isCanonical (hyphenate ds) = true := by
  have plain : (hyphenate ds).filter (· != '-') = ds := filter_hyphenate fun c hc => by
    refine bne_iff_ne.2 fun e => ?_
    have := hex c hc
    rw [e] at this
    exact absurd this (by decide)
  simp only [isCanonical, plain, length, List.all_eq_true.2 hex, BEq.rfl, Bool.and_self]

end Uuid

/-- A UUID, by its canonical text. -/
structure Uuid where
  text : String
  canonical : Uuid.isCanonical text.toList = true
deriving DecidableEq

namespace Uuid

def ofChars? (cs : List Char) : Option Uuid :=
  if h : isCanonical cs = true then
    some ⟨String.ofList cs, by simpa only [String.toList_ofList] using h⟩
  else none

/-- Reads the hyphenated form, alone, in braces or after `urn:uuid:`, or 32 digits without hyphens;
letters, those of `urn:uuid:` included, may be in either case. -/
def ofText? (s : String) : Option Uuid :=
  let cs := s.toList
  let lower := cs.map Char.toLower
  match cs.length with
  | 32 => ofChars? (hyphenate lower)
  | 36 => ofChars? lower
  | 38 =>
    if cs.head? = some '{' ∧ cs.getLast? = some '}' then ofChars? (lower.drop 1).dropLast else none
  | 45 => if lower.take 9 = "urn:uuid:".toList then ofChars? (lower.drop 9) else none
  | _ => none

theorem isLowerHex_ofValue : ∀ v, v < 16 → isLowerHex (Digits.ofValue v) = true := by decide

/-- The UUID whose 128 bits are the last ones of `n`. -/
def ofNat (n : Nat) : Uuid where
  text := String.ofList (hyphenate (Digits.fixed 16 32 n))
  canonical := by
    rw [String.toList_ofList]
    refine isCanonical_hyphenate (Digits.length_fixed 16 32 n) fun c hc => ?_
    obtain ⟨v, hv, rfl⟩ := Digits.exists_of_mem_fixed (by decide) hc
    exact isLowerHex_ofValue v hv

end Uuid

end StationCatalog
