/-!
Numerals: natural numbers written in a base of at most sixteen.
-/

namespace WordTemplate.Text

def digitValue? (base : Nat) (c : Char) : Option Nat :=
  let value :=
    if c.isDigit then some (c.toNat - '0'.toNat)
    else if 'a' ≤ c && c ≤ 'f' then some (c.toNat - 'a'.toNat + 10)
    else if 'A' ≤ c && c ≤ 'F' then some (c.toNat - 'A'.toNat + 10)
    else none
  value.filter fun value => value < base

/-- Continues a number from left to right; every character has to be a digit. -/
def numberFrom? (base : Nat) (value : Nat) : List Char → Option Nat
  | [] => some value
  | c :: rest => do
    let digit ← digitValue? base c
    numberFrom? base (value * base + digit) rest

/-- One or more digits. -/
def number? (base : Nat) (digits : List Char) : Option Nat :=
  if digits.isEmpty then none else numberFrom? base 0 digits

theorem numberFrom?_of_digits {digits : List Char} (isDigit : ∀ c ∈ digits, c.isDigit = true)
    (value : Nat) : numberFrom? 10 value digits = some (Nat.ofDigitChars 10 digits value) := by
  induction digits generalizing value with
  | nil => rfl
  | cons c rest ih =>
      have here := isDigit c (List.mem_cons_self ..)
      have small : c.toNat - '0'.toNat < 10 := by
        simp only [Char.isDigit, Bool.and_eq_true, decide_eq_true_eq] at here
        have high := UInt32.le_iff_toNat_le.mp here.2
        simp only [Char.toNat]
        simp at high ⊢
        omega
      rw [numberFrom?, digitValue?, if_pos here]
      simp only [Option.filter_some, small, decide_true, if_true, Option.bind_eq_bind, Option.bind_some]
      rw [ih fun d member => isDigit d (List.mem_cons_of_mem _ member)]
      simp [Nat.ofDigitChars, Nat.mul_comm]

/-- A number is read as it is written. -/
theorem number?_toString (number : Nat) : number? 10 (toString number).toList = some number := by
  rw [Nat.toString_eq_ofList_toDigits, String.toList_ofList, number?]
  split
  · rename_i empty
    exact absurd (List.isEmpty_iff.mp empty) (Nat.toDigits_ne_nil)
  · rw [numberFrom?_of_digits fun c member => Nat.isDigit_of_mem_toDigits (by decide) (by decide) member]
    rw [Nat.ofDigitChars_ten_toDigits]

/-- The character with a code point, which surrogates and numbers beyond the last are not. -/
def charOfCode? (code : Nat) : Option Char :=
  if code.isValidChar then some (Char.ofNat code) else none

end WordTemplate.Text
