import Provenance.Fault
import Provenance.Json.Basic

/-! # Faults as JSON -/

namespace Provenance.Fault

/-- The word for the kind of a fault. -/
def word : Fault → String
  | cycle _ => "CyclicLineage"
  | parameterMismatch .. => "ParameterMismatch"
  | arity .. => "Arity"
  | overwrite .. => "Overwrite"
  | invalidJoin _ => "InvalidJoin"
  | unsupportedMode _ => "UnsupportedMode"
  | execution .. => "Execution"
  | compilation .. => "Compilation"
  | storage .. => "Storage"
  | cancelled _ => "Cancelled"
  | settings _ => "Config"
  | overflow => "Panic"

/-- What the JSON form of a fault says: its kind, its wording, and the steps that were completed before
a cancellation. Of a panic it says that there was one. -/
def fields (f : Fault) : List (String × Json) :=
  if f.isPanic then [("error", .text f.word)]
  else
    [("error", .text f.word), ("message", .text f.message), ("structural", .bool f.isStructural)] ++
      match f with
      | cancelled completed => [("completed", .texts completed)]
      | _ => []

/-- The JSON form of a fault. -/
def toJson (f : Fault) : Json := .object f.fields

end Provenance.Fault
