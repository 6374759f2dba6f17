/-
  TrimGuard/Text/Numeral.lean
  ===========================
  **Written numbers.**

  Two notations are in use.  Metadata tokens are written in hexadecimal with a
  fixed number of digits.  Version components are read as decimal numbers that
  may open with a plus sign, may have any number of leading zeros, and must stay
  within a bound; the length of the text says nothing about the size of the
  number, so the bound is put on the value.
-/

namespace TrimGuard.Text

/-! ### Hexadecimal -/

/-- `n` in lower-case hexadecimal, padded with zeros to at least `width` digits. -/
def hexDigits (width n : Nat) : List Char :=
  (Nat.toDigits 16 n).leftpad width '0'

/-- The text of `hexDigits`, with the marker `0x` in front. -/
def hex (width n : Nat) : String :=
  String.ofList ('0' :: 'x' :: hexDigits width n)

/-! ### Decimal -/

/-- `n` in decimal, without sign and without leading zeros. -/
def decimal (n : Nat) : String := String.ofList (Nat.toDigits 10 n)

/-- The digits of a numeral, once an opening plus sign is taken off. -/
def unsigned : List Char → List Char
  | '+' :: cs => cs
  | cs => cs

/-- A decimal numeral: one or more ASCII digits, after at most one plus sign. -/
def IsNumeral (cs : List Char) : Prop :=
  unsigned cs ≠ [] ∧ ∀ c ∈ unsigned cs, c.isDigit = true

-- the digits of the text are looked at, not all characters there are
instance (cs : List Char) : Decidable (IsNumeral cs) :=
  have _ : Decidable (∀ c ∈ unsigned cs, c.isDigit = true) := List.decidableBAll _ _
  instDecidableAnd

def numeralValue (cs : List Char) : Nat := Nat.ofDigitChars 10 (unsigned cs) 0

/-- Read a decimal numeral whose value is at most `bound`. -/
def numeral? (bound : Nat) (cs : List Char) : Option Nat :=
  if IsNumeral cs ∧ numeralValue cs ≤ bound then some (numeralValue cs) else none

theorem unsigned_of_isDigit {cs : List Char} (h : ∀ c ∈ cs, c.isDigit = true) :
    unsigned cs = cs := by
  unfold unsigned
  split
  next cs => exact absurd (h '+' List.mem_cons_self) (by decide)
  next => rfl

theorem isDigit_of_mem_decimal {n : Nat} {c : Char} (h : c ∈ (decimal n).toList) :
    c.isDigit = true := by
  rw [decimal, String.toList_ofList] at h
  exact Nat.isDigit_of_mem_toDigits (by decide) (by decide) h

/-- A number within the bound is read as it was written. -/
theorem numeral?_decimal {bound n : Nat} (h : n ≤ bound) :
    numeral? bound (decimal n).toList = some n := by
  have hdigits : ∀ c ∈ (decimal n).toList, c.isDigit = true := fun _ => isDigit_of_mem_decimal
  have hsign := unsigned_of_isDigit hdigits
  have hvalue : numeralValue (decimal n).toList = n := by
    rw [numeralValue, hsign, decimal, String.toList_ofList, Nat.ofDigitChars_ten_toDigits]
  have hnumeral : IsNumeral (decimal n).toList := by
    rw [IsNumeral, hsign]
    refine ⟨?_, hdigits⟩
    rw [decimal, String.toList_ofList]
    exact Nat.toDigits_ne_nil
  rw [numeral?, hvalue, if_pos ⟨hnumeral, h⟩]

end TrimGuard.Text
