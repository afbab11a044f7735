import Provenance.Run.Setup

/-! # What is reported of a run -/

namespace Provenance.Run

/-- What happened to a step. -/
inductive Event where
  | started
  | finished
  | written (address : Address)
  | failed
  deriving DecidableEq, Repr

/-- The word for what happened. -/
def Event.word : Event → String
  | started => "step_started"
  | finished => "step_finished"
  | written _ => "materialized"
  | failed => "step_failed"

/-- The address that was written, if any. -/
def Event.address? : Event → Option Address
  | written a => some a
  | _ => none

/-- An entry of a trace. Entries are numbered from zero. -/
structure Entry where
  seq : Nat
  event : Event
  step : StepId
  task : String
  deriving DecidableEq, Repr

/-- A step that was completed. -/
structure Completed where
  step : StepId
  task : String
  output : Address
  kind : TargetKind
  engine : String
  rows : Nat
  deriving DecidableEq, Repr

/-- The label of a completed step. -/
def Completed.label (c : Completed) : String := c.task ++ " -> " ++ c.output.name

/-- The report of a run in which every step was completed: steps and written addresses in the order of
their completion, and the data where the graph ends. -/
structure Report where
  site : Site
  completed : List Completed
  written : List Address
  trace : List Entry
  outputs : List (Address × Dataset)

namespace Report

/-- The data at an end of the graph. -/
def output? (r : Report) (a : Address) : Option Dataset := r.outputs.lookup a

/-- The place of the first entry about a step in the trace that satisfies a test. -/
def place? (r : Report) (id : StepId) (test : Event → Bool) : Option Nat :=
  r.trace.findIdx? fun e => e.step == id && test e.event

/-- Where the trace says that a step started. -/
def started? (r : Report) (id : StepId) : Option Nat := r.place? id (· == .started)

/-- Where the trace says that a step finished. -/
def finished? (r : Report) (id : StepId) : Option Nat := r.place? id (· == .finished)

/-- Where the trace says that an address was written. -/
def written? (r : Report) (a : Address) : Option Nat := r.trace.findIdx? (·.event == .written a)

/-- Whether an address was written. -/
def wasWritten (r : Report) (a : Address) : Bool := r.written.contains a

end Report

end Provenance.Run
