import Provenance.Assoc
import Provenance.Dataset
import Provenance.Fault
import Provenance.Target

/-! # Tasks

A task is a named function from named inputs to data, together with what it is bound to and what is to
be watched. A call of its body is an attempt: it gives data or fails, it may ask for the whole run to be
stopped, and it may leave lines in a log. -/

namespace Provenance

/-- When a task is to be started. -/
structure Schedule where
  cron : String
  timezone : Option String
  deriving DecidableEq

/-- What is to be watched. -/
structure Monitoring where
  alertOnFailure : Bool
  maxDurationSecs : Option UInt64
  notify : List String
  deriving DecidableEq

/-- Data under names, in the order in which the names first came. -/
structure Inputs where
  entries : List (String × Dataset)
  deriving Inhabited

namespace Inputs

/-- No data. -/
def empty : Inputs := ⟨[]⟩

/-- Puts data under a name; a new name goes to the end. -/
def insert (i : Inputs) (name : String) (data : Dataset) : Inputs := ⟨assign name data i.entries⟩

/-- The data under a name. -/
def get? (i : Inputs) (name : String) : Option Dataset := i.entries.lookup name

/-- The data under a name, or the failure of a task that misses it. -/
def require (i : Inputs) (name : String) : Except TaskFailure Dataset :=
  match i.get? name with
  | some d => .ok d
  | none => .error (.missingInput name)

/-- The names in order. -/
def names (i : Inputs) : List String := i.entries.map (·.1)

/-- The number of names. -/
def size (i : Inputs) : Nat := i.entries.length

end Inputs

/-- What came of one call of a task's body. -/
structure Attempt where
  result : Except TaskFailure Dataset
  cancels : Bool := false
  log : List String := []

/-- A named function from inputs to data. -/
structure Task where
  name : String
  params : List String
  body : Inputs → Attempt
  target : Target
  schedule : Option Schedule
  monitoring : Option Monitoring

/-- A task on the host, neither scheduled nor watched. -/
def Task.plain (name : String) (params : List String) (body : Inputs → Attempt) : Task :=
  ⟨name, params, body, .default, none, none⟩

end Provenance
