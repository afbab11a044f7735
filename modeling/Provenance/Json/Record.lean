import Provenance.Json.Source

/-! # Reading records from JSON

A record is written as an object with a field for each of its parts. Unknown fields are skipped, a
field given twice is refused, and a part that may be missing may also be null. A record may as well be
a list of its parts in their order; then all of them are there, unless the record has a default for
each, and no others. A choice between names is a text, or an object with the name and null. -/

namespace Provenance.Json.Record

/-- What reads a value that may nest `depth` levels. -/
abbrev Reader (α : Type) := Nat → Source → Option α

/-- Looks for a field among the fields of an object: `none` if it is given twice. -/
def slot (name : String) : List (Option String × Source) → Option (Option Source)
  | [] => some none
  | (k, v) :: rest =>
    match slot name rest with
    | none => none
    | some later =>
      if k = some name then
        match later with
        | some _ => none
        | none => some (some v)
      else some later

/-- The parts of a record in the order of `names`, with the depth that is left for them. A list may
be shorter than the names only if `lenient`. -/
def parts (names : List String) (lenient : Bool) : Reader (Nat × List (Option Source))
  | 0, _ => none
  | depth + 1, .object fs =>
    if fs.all (·.1.isSome) then (names.mapM (slot · fs)).map fun ps => (depth, ps) else none
  | depth + 1, .list is =>
    if is.length = names.length ∨ (lenient ∧ is.length < names.length) then
      some (depth, is.map some ++ List.replicate (names.length - is.length) none)
    else none
  | _, _ => none

/-- A part that must be there. -/
def required {α : Type} (read : Reader α) (depth : Nat) (part : Option Source) : Option α :=
  part.bind (read depth)

/-- A part that may be missing or null. -/
def nullable {α : Type} (read : Reader α) (depth : Nat) : Option Source → Option (Option α)
  | none => some none
  | some .null => some none
  | some s => (read depth s).map some

/-- A part with a default. -/
def defaulted {α : Type} (fallback : α) (read : Reader α) (depth : Nat) : Option Source → Option α
  | none => some fallback
  | some s => read depth s

/-- A text. -/
def string : Reader String
  | _, .text t => t
  | _, _ => none

/-- A truth value. -/
def bool : Reader Bool
  | _, .bool b => some b
  | _, _ => none

/-- A whole number below `bound`, written without point and exponent. -/
def natBelow (bound : Nat) : Reader Nat
  | _, .number n =>
    match n.value? with
    | some (.int i) => if 0 ≤ i ∧ i < bound then some i.toNat else none
    | _ => none
  | _, _ => none

/-- A floating point number; a whole number will do. -/
def float : Reader Float
  | _, .number n => n.value?.bind Json.float?
  | _, _ => none

/-- Any value. -/
def any : Reader Json := Source.json?

/-- A list of values. -/
def listOf {α : Type} (read : Reader α) : Reader (List α)
  | depth + 1, .list is => is.mapM (read depth)
  | _, _ => none

/-- One entry of a map from texts. -/
def entry {α : Type} (read : Reader α) (depth : Nat) :
    Option String × Source → Option (String × α)
  | (some k, s) => (read depth s).map fun v => (k, v)
  | (none, _) => none

/-- A map from texts; of two entries with one key the later stays. -/
def indexOf {α : Type} (read : Reader α) : Reader (Index α)
  | depth + 1, .object fs => (fs.mapM (entry read depth)).map Index.ofList
  | _, _ => none

/-- One of several names. -/
def choice {α : Type} (options : List (String × α)) : Reader α
  | _, .text (some name) => Index.seek name options
  | _ + 1, .object [(some name, .null)] => Index.seek name options
  | _, _ => none

/-- Reads a whole text with a reader. -/
def read? {α : Type} (read : Reader α) (s : String) : Option α :=
  (Source.ofText? s).bind (read Source.depthLimit)

/-- Reads a whole text, given as bytes, with a reader. -/
def readBytes? {α : Type} (read : Reader α) (bytes : List UInt8) : Option α :=
  (Source.ofBytes? bytes).bind (read Source.depthLimit)

end Provenance.Json.Record
