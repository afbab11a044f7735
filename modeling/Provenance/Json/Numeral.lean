import Provenance.Json.Basic

/-! # Number literals

A numeral without point and exponent that fits 64 bits is a whole number; negative zero and every
other numeral is a floating point number. Its value is formed in a fixed way that can differ from the
nearest double in the last place: leading digits are collected as long as they fit 64 bits, the others
only count, and the collected number is scaled once by a power of ten. A numeral whose value is too
large for a double is refused. -/

namespace Provenance.Json

/-- A number literal in its parts; digits are listed from the left. -/
structure Numeral where
  negative : Bool
  whole : List Nat
  fraction : Option (List Nat)
  exponent : Option (Bool × List Nat)
  deriving DecidableEq, Repr, Inhabited

namespace Numeral

/-- The largest collected number. -/
def limit : Nat := UInt64.size - 1

/-- Collects digits while they fit; answers the number and how many digits were left out. -/
def collect (significand : Nat) : List Nat → Nat × Nat
  | [] => (significand, 0)
  | d :: ds =>
    let next := significand * 10 + d
    if next > limit then (significand, ds.length + 1) else collect next ds

/-- The power of ten nearest to `10 ^ e`, for an exponent up to 308. -/
def power (e : Nat) : Float := Float.ofScientific 1 false e

/-- Scales by a power of ten; `none` when the result is too large. Far below the range of doubles the
number is brought down in several steps, of which `fuel` bounds the count. -/
def scale : Nat → Float → Int → Option Float
  | 0, x, _ => some x
  | fuel + 1, x, e =>
    if e.natAbs ≤ 308 then
      if 0 ≤ e then
        let y := x * power e.natAbs
        if y == 1.0 / 0.0 then none else some y
      else some (x / power e.natAbs)
    else if x == 0.0 then some x
    else if 0 ≤ e then none
    else scale fuel (x / power 308) (e + 308)

/-- A number with its sign. -/
def signed (negative : Bool) (x : Float) : Float := if negative then -x else x

/-- The largest exponent that is counted exactly: the largest number of 32 bits with sign. -/
def exponentLimit : Nat := 2147483647

/-- Adds exponents, staying within 32 bits. -/
def addExponents (a b : Int) : Int := max (-(exponentLimit : Int) - 1) (min exponentLimit (a + b))

/-- The digits of an exponent as a number. -/
def count (ds : List Nat) : Nat := ds.foldl (fun n d => n * 10 + d) 0

/-- The value of a numeral, or `none` when it is out of range. -/
def value? (n : Numeral) : Option Json :=
  let (significand, dropped) := collect 0 n.whole
  match n.fraction, n.exponent, dropped with
  | none, none, 0 =>
    if n.negative then
      if 0 < significand ∧ significand ≤ Text.halfWord then some (.int (-(significand : Int)))
      else some (.float (-(Float.ofNat significand)))
    else some (.int significand)
  | fraction, exponent, _ =>
    let digits := fraction.getD []
    let (significand, unread) := collect significand digits
    let base : Int := dropped - ((digits.length - unread : Nat) : Int)
    match exponent with
    | none => (scale 8 (Float.ofNat significand) base).map fun x => .float (signed n.negative x)
    | some (down, ds) =>
      let e := count ds
      if e > exponentLimit then
        if significand == 0 || down then some (.float (signed n.negative 0.0)) else none
      else
        let e' := addExponents base (if down then -(e : Int) else e)
        (scale 8 (Float.ofNat significand) e').map fun x => .float (signed n.negative x)

end Numeral

end Provenance.Json
