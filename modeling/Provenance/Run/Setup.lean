import Provenance.Assoc
import Provenance.Graph.Basic
import Provenance.Store.Basic
import Provenance.Text.Blank

/-! # How a graph is run

A setup says what is run, where its data is kept, who computes a step, how many steps may run at once and
which data is written. Data is written where the graph ends, or where a step of another kind of target
reads it; only steps of one kind hand data to each other in memory. -/

namespace Provenance.Run

universe u

/-- Which data is written. -/
inductive Policy where
  | boundaries
  | all
  deriving DecidableEq, Repr

/-- The word for a policy. -/
def Policy.word : Policy → String
  | boundaries => "boundaries"
  | all => "all"

/-- Reads a policy; blanks around it and the case of its letters do not matter. -/
def Policy.ofText (text : String) : Except Fault Policy :=
  match Text.lowerAscii (Text.trim text) with
  | "boundaries" => .ok .boundaries
  | "all" => .ok .all
  | word => .error (.settings (.policy word))

/-- Where steps run: all in the process itself, or each on the engine for its kind of target. -/
inductive Site where
  | process
  | engines
  deriving DecidableEq, Repr

/-- The word for a site. -/
def Site.word : Site → String
  | process => "local"
  | engines => "cloud"

/-- Something that computes steps. -/
structure Engine where
  name : String
  perform : Step → Inputs → Attempt

/-- The process itself, which calls the body of the task. -/
def Engine.inProcess : Engine := ⟨"in-process", fun s inputs => s.task.body inputs⟩

/-- What a run is made of. -/
structure Setup (σ : Type u) where
  graph : Graph
  site : Site
  policy : Policy
  workers : Nat
  engines : List (TargetKind × Engine)
  store : Store σ

namespace Setup

variable {σ : Type u}

/-- The number of steps that may run at once, at least one. -/
def bound (j : Setup σ) : Nat := max j.workers 1

/-- The engine that computes a step. -/
def engine (j : Setup σ) (s : Step) : Engine :=
  match j.site with
  | .process => .inProcess
  | .engines => (j.engines.lookup s.kind).getD .inProcess

/-- Whether the data of a step is written. -/
def mustWrite (j : Setup σ) (s : Step) : Bool :=
  let out := s.output.address
  j.policy == .all || j.graph.isSink out || (j.graph.consumers out).any fun c => c.kind != s.kind

/-- The handle that data at an address is read and written with. -/
def handle (j : Setup σ) (a : Asset) : Asset := (j.graph.asset? a.address).getD a

/-- The places of the steps that a step waits for. -/
def awaits (j : Setup σ) (s : Step) : List Nat := (j.graph.upstream s.id).filterMap j.graph.position?

end Setup

/-- Where the data of an input comes from. -/
inductive Source where
  | memory (data : Dataset)
  | storage (asset : Asset)

/-- Where a step takes its inputs from, given the data that the run has made so far. -/
def Setup.plan {σ : Type u} (j : Setup σ) (s : Step) (made : List (Address × Dataset)) :
    List (String × Source) :=
  s.inputs.map fun (param, a) =>
    let sameKind := ((j.graph.producer? a.address).map fun p => p.kind == s.kind).getD false
    match if sameKind then made.lookup a.address else none with
    | some data => (param, .memory data)
    | none => (param, .storage (j.handle a))

end Provenance.Run
