/-! # The shortest decimal that reads back

A finite binary number `m * 2 ^ q` stands for every real number that rounds to it. Among the decimals
in that interval the one with the fewest digits is its name, and among several of that length the one
nearest to the number.

The search is exact: for each number of digits the two neighbours of the value on that decimal grid
are tested with whole numbers. If any point of a grid lies in the interval, so does one of these two,
so the first grid with a hit is the coarsest. Seventeen digits always suffice. -/

namespace Provenance.Decimal

/-- A binary number `m * 2 ^ q`, without its sign. -/
structure Binary where
  m : Nat
  q : Int
  deriving DecidableEq, Repr

/-- A decimal number `digits * 10 ^ exponent`, without its sign. -/
structure Digits where
  digits : Nat
  exponent : Int
  deriving DecidableEq, Repr

/-- What the bits of a floating point number mean. -/
inductive Parts where
  | finite (negative : Bool) (magnitude : Binary)
  | infinite (negative : Bool)
  | nan
  deriving DecidableEq, Repr

/-- What the bit that a double leaves out counts; the bits below it are the fraction. -/
def hiddenBit : Nat := Nat.pow 2 52

/-- Splits the bits of a double into sign and magnitude. -/
def Parts.ofBits (bits : Nat) : Parts :=
  let negative := bits / hiddenBit / 2048 % 2 == 1
  let biased : Nat := bits / hiddenBit % 2048
  let fraction : Nat := bits % hiddenBit
  if biased == 2047 then
    if fraction == 0 then .infinite negative else .nan
  else if biased == 0 then .finite negative ⟨fraction, -1074⟩
  else .finite negative ⟨fraction + hiddenBit, (biased : Int) - 1075⟩

/-- Sign and magnitude of a double. -/
def Parts.ofFloat (x : Float) : Parts := .ofBits x.toBits.toNat

/-- Compares `a * 2 ^ p` with `b * 10 ^ k`, exactly. -/
def compareScaled (a : Nat) (p : Int) (b : Nat) (k : Int) : Ordering :=
  compare (a * Nat.pow 2 p.toNat * Nat.pow 10 (-k).toNat)
    (b * Nat.pow 10 k.toNat * Nat.pow 2 (-p).toNat)

namespace Binary

/-- The largest `e` with `10 ^ e` at most the number: an estimate from the length in bits, put right
by one exact comparison on either side. -/
def magnitude (x : Binary) : Int :=
  let estimate := ((Nat.log2 x.m : Nat) + x.q) * 30103 / 100000
  if compareScaled x.m x.q 1 (estimate + 1) != .lt then estimate + 1
  else if compareScaled x.m x.q 1 estimate == .lt then estimate - 1
  else estimate

/-- Whether `d * 10 ^ k` rounds to the number: it lies between the midpoints to both neighbours, the
ends included when `m` is even. Below a power of two the gap is half as wide. -/
def reads (x : Binary) (d : Nat) (k : Int) : Bool :=
  let below := if x.m == hiddenBit && x.q > -1074 then 1 else 2
  let low := compareScaled (4 * x.m - below) (x.q - 2) d k
  let high := compareScaled (4 * x.m + 2) (x.q - 2) d k
  if x.m % 2 == 0 then low != .gt && high != .lt else low == .lt && high == .gt

/-- The whole number of grid steps `10 ^ k` in the number, rounded down. -/
def gridFloor (x : Binary) (k : Int) : Nat :=
  (x.m * Nat.pow 2 x.q.toNat * Nat.pow 10 (-k).toNat) /
    (Nat.pow 10 k.toNat * Nat.pow 2 (-x.q).toNat)

/-- Whether the number is nearer to the grid point above `d * 10 ^ k` than to that point; of two
equally near points the even one is taken. -/
def nearerAbove (x : Binary) (d : Nat) (k : Int) : Bool :=
  match compareScaled (2 * x.m) x.q (2 * d + 1) k with
  | .gt => true
  | .lt => false
  | .eq => d % 2 == 1

/-- The point of the grid `10 ^ k` that names the number, if there is one. -/
def onGrid? (x : Binary) (k : Int) : Option Digits :=
  let d := x.gridFloor k
  match x.reads d k, x.reads (d + 1) k with
  | true, true => some ⟨if x.nearerAbove d k then d + 1 else d, k⟩
  | true, false => some ⟨d, k⟩
  | false, true => some ⟨d + 1, k⟩
  | false, false => none

/-- The first grid with a hit, from `n` digits on; `fuel` more grids are tried. -/
def search (x : Binary) (e : Int) : Nat → Nat → Digits
  | 0, n => ⟨x.gridFloor (e - n + 1), e - n + 1⟩
  | fuel + 1, n => (x.onGrid? (e - n + 1)).getD (x.search e fuel (n + 1))

end Binary

/-- Moves the zeros at the end of the digits into the exponent; `fuel` bounds their number. -/
def Digits.strip : Nat → Digits → Digits
  | 0, d => d
  | fuel + 1, d =>
    if d.digits != 0 && d.digits % 10 == 0 then strip fuel ⟨d.digits / 10, d.exponent + 1⟩ else d

/-- The shortest decimal that reads back as the number, without zeros at its end. -/
def Binary.shortest (x : Binary) : Digits :=
  if x.m == 0 then ⟨0, 0⟩ else (x.search x.magnitude 17 1).strip 400

end Provenance.Decimal
