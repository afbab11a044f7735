import Provenance.Index
import Provenance.Text.Whole

/-! # JSON values

Whole numbers and floating point numbers are kept apart: `1` and `1.0` are different values, and a
whole number is exact as far as 64 bits reach. The fields of an object are listed in the order in
which they are written; `Json.fields` sorts them, which is the order of data, while a record lists its
own fields in the order of its declaration. -/

namespace Provenance

/-- A JSON value. -/
inductive Json where
  | null
  | bool (value : Bool)
  | int (value : Int)
  | float (value : Float)
  | text (value : String)
  | list (items : List Json)
  | object (fields : List (String × Json))
  deriving Inhabited

namespace Json

/-- An object with sorted fields; of two with one name the later stays. -/
def fields (entries : List (String × Json)) : Json := .object (Index.ofList entries).entries

/-- The value itself, or null for a missing one. -/
def option {α : Type} (f : α → Json) : Option α → Json
  | none => .null
  | some a => f a

/-- A whole number. -/
def nat (n : Nat) : Json := .int n

/-- A list of texts. -/
def texts (items : List String) : Json := .list (items.map .text)

/-- The field of an object, if the value is an object that has it. -/
def field? (j : Json) (name : String) : Option Json :=
  match j with
  | .object fs => Index.seek name fs
  | _ => none

/-- The text, if the value is one. -/
def text? : Json → Option String
  | .text s => some s
  | _ => none

/-- The items, if the value is a list. -/
def list? : Json → Option (List Json)
  | .list items => some items
  | _ => none

/-- The number as a whole number of 64 bits with sign, if it is one. -/
def int64? : Json → Option Int
  | .int n => if -(Text.halfWord : Int) ≤ n ∧ n < Text.halfWord then some n else none
  | _ => none

/-- The number as a floating point number. -/
def float? : Json → Option Float
  | .int n => some (Float.ofInt n)
  | .float x => some x
  | _ => none

mutual

/-- Whether two values are the same: numbers by value, but a whole number differs from a floating
point number; objects by their fields in order. -/
def same : Json → Json → Bool
  | .null, .null => true
  | .bool a, .bool b => a == b
  | .int a, .int b => a == b
  | .float a, .float b => a == b
  | .text a, .text b => a == b
  | .list a, .list b => sameItems a b
  | .object a, .object b => sameFields a b
  | _, _ => false

/-- `same` along two lists of one length. -/
def sameItems : List Json → List Json → Bool
  | [], [] => true
  | a :: as, b :: bs => same a b && sameItems as bs
  | _, _ => false

/-- `same` along two lists of fields with the same names. -/
def sameFields : List (String × Json) → List (String × Json) → Bool
  | [], [] => true
  | (k, a) :: as, (l, b) :: bs => k == l && same a b && sameFields as bs
  | _, _ => false

end

end Json

end Provenance
