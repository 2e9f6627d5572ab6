/-!
# Decimal numerals

Schedule fields, errors and descriptions write numbers in decimal. A numeral is
a non-empty run of ASCII digits; leading zeros are allowed and there is no upper
limit on its length. Reading saturates: a numeral beyond the greatest 32-bit
number reads as that number. `value_digits` says that the printed digits of any
number have it as their value.
-/

namespace CronSchedule.Numeral

set_option autoImplicit false

/-- Signs, blanks and other scripts' digits make no numeral. -/
def IsNumeral (text : List Char) : Prop :=
  text ≠ [] ∧ ∀ char ∈ text, char.isDigit = true

instance (text : List Char) : Decidable (IsNumeral text) :=
  decidable_of_bool (!text.isEmpty && text.all Char.isDigit) (by simp [IsNumeral])

def value (text : List Char) : Nat := Nat.ofDigitChars 10 text 0

/-- The greatest number that a numeral reads as. -/
def saturation : Nat := 4294967295

/-- The value of a numeral, cut off at the greatest readable number, or `none` for
any other text. -/
def read? (text : List Char) : Option Nat :=
  if IsNumeral text then some (min (value text) saturation) else none

def digits (number : Nat) : List Char := Nat.toDigits 10 number

/-- The digits of a number, filled up with zeros on the left to the width. -/
def padded (width number : Nat) : List Char := List.leftpad width '0' (digits number)

/-- The minus sign of a negative number counts towards the width. -/
def paddedInt (width : Nat) (number : Int) : List Char :=
  if number < 0 then '-' :: padded (width - 1) number.natAbs else padded width number.natAbs

theorem digits_numeral (number : Nat) : IsNumeral (digits number) :=
  ⟨Nat.toDigits_ne_nil, fun _ member => Nat.isDigit_of_mem_toDigits (by decide) (by decide) member⟩

theorem value_digits (number : Nat) : value (digits number) = number :=
  Nat.ofDigitChars_ten_toDigits

end CronSchedule.Numeral
