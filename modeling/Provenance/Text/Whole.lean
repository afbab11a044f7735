/-! # Whole numbers in text

A whole number is a run of ASCII digits with an optional sign. A number that carries no minus sign
may be bounded by the width of the word it is meant for, and leading zeros are allowed. Digits of base
sixteen are only written. -/

namespace Provenance.Text

/-- The digit of base sixteen for a number below sixteen, in small letters. -/
def hexDigit (n : Nat) : Char :=
  if n < 10 then Char.ofNat (48 + n) else Char.ofNat (87 + n)

/-- The value of a digit of ASCII. -/
def digit? (c : Char) : Option Nat :=
  if '0' ≤ c ∧ c ≤ '9' then some (c.toNat - '0'.toNat) else none

/-- The number that a non-empty run of digits denotes. -/
def digits? : List Char → Option Nat
  | [] => none
  | cs => cs.foldl (fun acc c => acc.bind fun n => (digit? c).map fun d => n * 10 + d) (some 0)

/-- Reads a number below `bound`; one plus sign may stand in front. -/
def natBelow? (bound : Nat) (s : String) : Option Nat :=
  let cs := s.toList
  (digits? (if cs.head? == some '+' then cs.drop 1 else cs)).filter (· < bound)

/-- Half of the numbers of 64 bits: those with sign reach from `-halfWord` to just below it. -/
def halfWord : Nat := 9223372036854775808

/-- Reads a signed number that fits 64 bits. -/
def int64? (s : String) : Option Int :=
  match s.toList with
  | '-' :: cs => ((digits? cs).filter (· ≤ halfWord)).map fun n => -(n : Int)
  | '+' :: cs => ((digits? cs).filter (· < halfWord)).map fun n => (n : Int)
  | cs => ((digits? cs).filter (· < halfWord)).map fun n => (n : Int)

end Provenance.Text
