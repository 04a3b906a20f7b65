import Mathlib.Data.List.Induction
import Mathlib.Data.String.Basic
import StationCatalog.Entity.Id

/-!
The order of UUIDs. Every UUID stands for a number of 128 bits, and digits of a fixed width, with or
without hyphens at fixed places, are in the order of the numbers they stand for; so the order of
canonical texts, in which identifiers of responses are listed, is that of the numbers.
-/

namespace StationCatalog

namespace Digits

theorem ofValue_lt : ∀ y < 16, ∀ x < y, ofValue x < ofValue y := by decide

theorem append_lt_append {a b : List Char} (length : a.length = b.length) (h : a < b)
    (c d : List Char) : a ++ c < b ++ d := by
  induction a generalizing b with
  | nil =>
      rw [List.eq_nil_of_length_eq_zero length.symm] at h
      exact absurd h (lt_irrefl _)
  | cons x a ih =>
      cases b with
      | nil => exact absurd length (Nat.succ_ne_zero _)
      | cons y b =>
          rw [List.cons_append, List.cons_append, List.cons_lt_cons_iff]
          exact (List.cons_lt_cons_iff.1 h).imp_right fun ⟨same, rest⟩ =>
            ⟨same, ih (Nat.succ.inj length) rest⟩

theorem fixed_lt_fixed {width m n : Nat} (h : m < n) (bound : n < 16 ^ width) :
    fixed 16 width m < fixed 16 width n := by
  induction width generalizing m n with
  | zero => omega
  | succ width ih =>
      have above : n / 16 < 16 ^ width :=
        Nat.div_lt_of_lt_mul (by rwa [Nat.pow_succ, Nat.mul_comm] at bound)
      rcases Nat.lt_or_eq_of_le (Nat.div_le_div_right h.le) with first | same
      · exact append_lt_append (by rw [length_fixed, length_fixed]) (ih first above) _ _
      · rw [fixed, fixed, same]
        have last : m % 16 < n % 16 := by omega
        exact List.append_left_lt
          (List.cons_lt_cons_iff.2 (.inl (ofValue_lt _ (Nat.mod_lt n (by decide)) _ last)))

end Digits

namespace Uuid

open Digits

theorem exists_ofValue {c : Char} (h : isLowerHex c = true) : ∃ v < 16, c = ofValue v := by
  have value : c = Char.ofNat c.toNat := c.ofNat_toNat.symm
  have zero : '0' ≤ c ↔ 48 ≤ c.toNat := Iff.rfl
  have nine : c ≤ '9' ↔ c.toNat ≤ 57 := Iff.rfl
  have a : 'a' ≤ c ↔ 97 ≤ c.toNat := Iff.rfl
  have f : c ≤ 'f' ↔ c.toNat ≤ 102 := Iff.rfl
  simp only [isLowerHex, Bool.or_eq_true, Bool.and_eq_true, decide_eq_true_eq, zero, nine, a, f] at h
  rcases h with ⟨lower, upper⟩ | ⟨lower, upper⟩
  · refine ⟨c.toNat - 48, by omega, ?_⟩
    rw [ofValue, if_pos (by omega), show 48 + (c.toNat - 48) = c.toNat by omega, ← value]
  · refine ⟨c.toNat - 87, by omega, ?_⟩
    rw [ofValue, if_neg (by omega), show 87 + (c.toNat - 87) = c.toNat by omega, ← value]

/-- Lower-case hexadecimal digits are those of some number. -/
theorem exists_fixed {ds : List Char} (hex : ∀ c ∈ ds, isLowerHex c = true) :
    ∃ n < 16 ^ ds.length, ds = fixed 16 ds.length n := by
  induction ds using List.reverseRecOn with
  | nil => exact ⟨0, Nat.one_pos, rfl⟩
  | append_singleton ds c ih =>
      obtain ⟨hexes, hexDigit⟩ := List.forall_mem_append.1 hex
      obtain ⟨n, hn, digits⟩ := ih hexes
      obtain ⟨v, hv, rfl⟩ := exists_ofValue (hexDigit c (List.mem_singleton.2 rfl))
      refine ⟨n * 16 + v, ?_, ?_⟩
      · rw [List.length_append, List.length_singleton, Nat.pow_succ]
        omega
      · rw [List.length_append, List.length_singleton, fixed,
          show (n * 16 + v) / 16 = n by omega, show (n * 16 + v) % 16 = v by omega, ← digits]

/-- Of what has one length, the lesser becomes the lesser. -/
def KeepsOrder (f : List Char → List Char) : Prop :=
  ∀ ⦃a b : List Char⦄, a.length = b.length → a < b → f a < f b

/-- A hyphen after `n` digits, before what becomes of the rest. -/
def hyphenAt (n : Nat) (f : List Char → List Char) (ds : List Char) : List Char :=
  ds.take n ++ '-' :: f (ds.drop n)

theorem KeepsOrder.hyphenAt {f : List Char → List Char} (hf : KeepsOrder f) (n : Nat) :
    KeepsOrder (hyphenAt n f) := by
  intro a b length h
  induction n generalizing a b with
  | zero => exact List.cons_lt_cons_iff.2 (.inr ⟨rfl, hf length h⟩)
  | succ n ih =>
      cases a with
      | nil =>
          rw [List.eq_nil_of_length_eq_zero length.symm] at h
          exact absurd h (lt_irrefl _)
      | cons x a =>
          cases b with
          | nil => exact absurd length (Nat.succ_ne_zero _)
          | cons y b =>
              refine List.cons_lt_cons_iff.2 ((List.cons_lt_cons_iff.1 h).imp_right ?_)
              exact fun ⟨same, rest⟩ => ⟨same, ih (Nat.succ.inj length) rest⟩

theorem hyphenate_eq (ds : List Char) :
    hyphenate ds = hyphenAt 8 (hyphenAt 4 (hyphenAt 4 (hyphenAt 4 fun ds => ds))) ds := by
  simp only [hyphenate, hyphenAt, List.drop_drop, List.append_assoc, List.cons_append]

theorem keepsOrder_hyphenate : KeepsOrder hyphenate := by
  have rest : KeepsOrder fun ds => ds := fun _ _ _ h => h
  rw [funext hyphenate_eq]
  exact (((rest.hyphenAt 4).hyphenAt 4).hyphenAt 4).hyphenAt 8

theorem text_ofNat (n : Nat) : (ofNat n).text = String.ofList (hyphenate (fixed 16 32 n)) := rfl

theorem text_ofNat_lt {m n : Nat} (h : m < n) (bound : n < 16 ^ 32) :
    (ofNat m).text < (ofNat n).text := by
  rw [text_ofNat, text_ofNat, String.lt_iff_toList_lt, String.toList_ofList,
    String.toList_ofList]
  exact keepsOrder_hyphenate (by rw [length_fixed, length_fixed]) (fixed_lt_fixed h bound)

/-- Every UUID stands for a number of 128 bits. -/
theorem exists_eq_ofNat (u : Uuid) : ∃ n < 16 ^ 32, u = ofNat n := by
  obtain ⟨text, canonical⟩ := u
  have hyphenated := canonical
  simp only [isCanonical, Bool.and_eq_true, beq_iff_eq, List.all_eq_true] at hyphenated
  obtain ⟨⟨length, hex⟩, whole⟩ := hyphenated
  obtain ⟨n, hn, digits⟩ := exists_fixed hex
  rw [length] at hn digits
  have same : text = (ofNat n).text := by
    rw [text_ofNat, ← digits, ← whole, String.ofList_toList]
  exact ⟨n, hn, by rw [mk.injEq, same]⟩

end Uuid

namespace EntityId

/-- Identifiers of responses are in the order of the numbers they stand for. -/
theorem compare_ofUuid {m n : Nat} (hm : m < 16 ^ 32) (hn : n < 16 ^ 32) :
    (ofUuid (.ofNat m)).compare (ofUuid (.ofNat n)) = Ord.compare m n := by
  rcases lt_trichotomy m n with before | rfl | after
  · rw [compare_lt_iff_lt.2 before]
    exact compare_lt_iff_lt.2 (Uuid.text_ofNat_lt before hn)
  · rw [compare_eq_iff_eq.2 rfl]
    exact compare_eq_iff_eq.2 rfl
  · rw [compare_gt_iff_gt.2 after]
    exact compare_gt_iff_gt.2 (Uuid.text_ofNat_lt after hm)

theorem exists_eq_ofUuid (i : EntityId .response) : ∃ n < 16 ^ 32, i = ofUuid (.ofNat n) := by
  obtain ⟨n, hn, same⟩ := Uuid.exists_eq_ofNat ⟨i.text, i.admitted⟩
  exact ⟨n, hn, congrArg ofUuid same⟩

end EntityId

end StationCatalog
