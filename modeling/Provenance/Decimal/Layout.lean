import Provenance.Decimal.Shortest

/-! # Writing floating point numbers

`Layout` holds the decisions that the digits leave open: which exponents are written out, and the
words for what is no number. Fixed places need no search: the exact binary value is rounded to a whole
number of units of the last place. -/

namespace Provenance.Decimal

/-- Exponents of the leading digit in `low ≤ e < high` are written out as zeros; others follow a mark
with their sign. -/
structure Layout where
  low : Int
  high : Int

/-- Data is written with exponents from -5 to 15 spelled out. -/
def dataLayout : Layout := ⟨-5, 16⟩

/-- Zeros in a row. -/
def zeros (n : Nat) : String := String.ofList (List.replicate n '0')

/-- The text of decimal digits under a layout. A number always shows a point or an exponent. -/
def Layout.write (l : Layout) (d : Digits) : String :=
  let ds := toString d.digits
  let e := d.exponent + ds.length - 1
  if d.digits == 0 then "0.0"
  else if l.low ≤ e ∧ e < l.high then
    if 0 ≤ d.exponent then ds ++ zeros d.exponent.toNat ++ ".0"
    else if 0 ≤ e then
      let whole := e.toNat + 1
      String.ofList (ds.toList.take whole) ++ "." ++ String.ofList (ds.toList.drop whole)
    else "0." ++ zeros (-e - 1).toNat ++ ds
  else
    let head := String.ofList (ds.toList.take 1)
    let tail := String.ofList (ds.toList.drop 1)
    let mantissa := if tail.isEmpty then head else head ++ "." ++ tail
    mantissa ++ "e" ++ (if e < 0 then "-" else "+") ++ toString e.natAbs

/-- The shortest text that reads back as the number; `none` for what is not finite. -/
def Layout.float? (l : Layout) (x : Float) : Option String :=
  match Parts.ofFloat x with
  | .finite negative m => some ((if negative then "-" else "") ++ l.write m.shortest)
  | _ => none

/-- A quotient rounded to the nearest whole number, a half to the even neighbour. -/
def roundDiv (num den : Nat) : Nat :=
  let q := num / den
  match compare (2 * (num % den)) den with
  | .lt => q
  | .gt => q + 1
  | .eq => if q % 2 == 0 then q else q + 1

/-- A number with a fixed count of places after the point, rounded from its exact binary value. -/
def fixed (places : Nat) (x : Float) : String :=
  match Parts.ofFloat x with
  | .nan => "NaN"
  | .infinite negative => if negative then "-inf" else "inf"
  | .finite negative b =>
    let grid := Nat.pow 10 places
    let units := roundDiv (b.m * Nat.pow 2 b.q.toNat * grid) (Nat.pow 2 (-b.q).toNat)
    let whole := toString (units / grid)
    let part := toString (units % grid)
    let text := if places == 0 then whole else whole ++ "." ++ zeros (places - part.length) ++ part
    (if negative then "-" else "") ++ text

end Provenance.Decimal
