/-!
Digits in base ten and base sixteen: fixed-width writing, and reading of a whole run.
-/

namespace StationCatalog.Digits

def ofValue (n : Nat) : Char :=
  Char.ofNat (if n < 10 then 48 + n else 87 + n)

/-- The value of a digit below `base`; letters count in either case. -/
def value? (base : Nat) (c : Char) : Option Nat :=
  let n := c.toNat
  let v := if 48 ≤ n ∧ n ≤ 57 then n - 48
    else if 97 ≤ n ∧ n ≤ 102 then n - 87
    else if 65 ≤ n ∧ n ≤ 70 then n - 55
    else base
  if v < base then some v else none

/-- The last `width` digits of `n`, most significant first. -/
def fixed (base : Nat) : Nat → Nat → List Char
  | 0, _ => []
  | width + 1, n => fixed base width (n / base) ++ [ofValue (n % base)]

@[simp] theorem length_fixed (base width n : Nat) : (fixed base width n).length = width := by
  induction width generalizing n with
  | zero => rfl
  | succ width ih => simp only [fixed, List.length_append, ih, List.length_singleton]

theorem exists_of_mem_fixed {base width n : Nat} {c : Char} (h : 0 < base)
    (hc : c ∈ fixed base width n) : ∃ v, v < base ∧ c = ofValue v := by
  induction width generalizing n with
  | zero => cases hc
  | succ width ih =>
    rcases List.mem_append.1 hc with hc | hc
    · exact ih hc
    · exact ⟨n % base, Nat.mod_lt n h, List.mem_singleton.1 hc⟩

/-- The number a run of digits stands for; refuses anything that is no digit. -/
def read? (base : Nat) (cs : List Char) : Option Nat :=
  cs.foldlM (fun n c => (value? base c).map (n * base + ·)) 0

/-- A whole number in decimal digits, at most one plus sign before them. -/
def readWhole? : List Char → Option Nat
  | [] | ['+'] => none
  | '+' :: cs | cs => read? 10 cs

def isDecimal (c : Char) : Bool := (value? 10 c).isSome

/-- Exactly `width` decimal digits at the front, and what follows them. -/
def readFixed? (width : Nat) (cs : List Char) : Option (Nat × List Char) :=
  if (cs.take width).length = width then (read? 10 (cs.take width)).map (·, cs.drop width)
  else none

end StationCatalog.Digits
