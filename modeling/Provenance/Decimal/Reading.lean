import Provenance.Text.Whole

/-! # Reading floating point numbers

A decimal text denotes the double nearest to its value. The grammar is digits with an optional point,
an optional exponent and an optional sign; a point may stand first or last, but one digit is needed.
The words for infinity and for no number are read too. -/

namespace Provenance.Decimal

/-- The double nearest to `digits * 10 ^ exponent`. Exponents far outside the range of doubles are
decided without large powers. -/
def nearest (digits : Nat) (exponent : Int) : Float :=
  let magnitude := exponent + (toString digits).length
  if digits == 0 || magnitude < -400 then 0.0
  else if magnitude > 400 then 1.0 / 0.0
  else if exponent < 0 then Float.ofScientific digits true exponent.natAbs
  else Float.ofScientific digits false exponent.toNat

/-- The exponent after a mark: an optional sign and at least one digit. -/
def exponent? : List Char → Option Int
  | '-' :: cs => (Text.digits? cs).map fun n => -(n : Int)
  | '+' :: cs => (Text.digits? cs).map fun n => (n : Int)
  | cs => (Text.digits? cs).map fun n => (n : Int)

/-- An unsigned decimal in digits. -/
def unsigned? (cs : List Char) : Option Float :=
  let isDigit := fun c => (Text.digit? c).isSome
  let whole := cs.takeWhile isDigit
  let rest := cs.dropWhile isDigit
  let (part, rest) := match rest with
    | '.' :: more => (more.takeWhile isDigit, more.dropWhile isDigit)
    | _ => ([], rest)
  let shift : Option Int := match rest with
    | [] => some 0
    | c :: more => if c == 'e' || c == 'E' then exponent? more else none
  match Text.digits? (whole ++ part), shift with
  | some digits, some e => some (nearest digits (e - part.length))
  | _, _ => none

/-- Reads a number, or one of the words for infinity and no number in any case of letters. -/
def float? (s : String) : Option Float :=
  let (negative, cs) := match s.toList with
    | '-' :: cs => (true, cs)
    | '+' :: cs => (false, cs)
    | cs => (false, cs)
  let word := cs.map Char.toLower
  let magnitude :=
    if word == "inf".toList || word == "infinity".toList then some (1.0 / 0.0)
    else if word == "nan".toList then some (0.0 / 0.0)
    else unsigned? cs
  magnitude.map fun x => if negative then -x else x

end Provenance.Decimal
