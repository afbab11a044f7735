import Provenance.Forecast.Basic
import Provenance.Infra.Compile
import Provenance.Run.Drive

/-! # One pipeline, several uses

The same graph is run, forecast or compiled, as a mode says. A mode that does not exist is reported
before anything that is wrong with the graph. -/

namespace Provenance

universe u

/-- What a pipeline is used for. -/
inductive Mode where
  | run (site : Run.Site)
  | analyze
  | generate
  deriving DecidableEq, Repr

namespace Mode

/-- The word for a mode. -/
def word : Mode → String
  | run site => site.word
  | analyze => "analyze"
  | generate => "generate"

/-- Reads a mode; blanks around it and the case of its letters do not matter. -/
def ofText (text : String) : Except Fault Mode :=
  match Text.lowerAscii (Text.trim text) with
  | "local" => .ok (.run .process)
  | "cloud" => .ok (.run .engines)
  | "analyze" => .ok .analyze
  | "generate" => .ok .generate
  | _ => .error (.unsupportedMode text)

end Mode

/-- What came of using a pipeline. -/
inductive Outcome where
  | executed (report : Run.Report)
  | analyzed (forecast : Forecast Float)
  | generated (plan : Plan)

/-- The word for what came of using a pipeline. -/
def Outcome.word : Outcome → String
  | executed _ => "executed"
  | analyzed _ => "analyzed"
  | generated _ => "generated"

/-- The mode that a pipeline was used in. -/
def Outcome.mode : Outcome → Mode
  | executed report => .run report.site
  | analyzed _ => .analyze
  | generated _ => .generate

/-- What a pipeline is used with. -/
structure Workbench (σ : Type u) where
  policy : Run.Policy
  workers : Nat
  engines : List (TargetKind × Run.Engine)
  store : Store σ
  stopAsked : Bool
  model : CostModel Float
  provider : Provider
  hooks : Hooks

/-- What is left of using a pipeline: what came of it, the state of the storage, and the lines that
tasks left in the log. -/
structure Use (σ : Type u) where
  outcome : Except Fault Outcome
  store : σ
  log : List String

namespace Workbench

variable {σ : Type u}

/-- A run of a graph at a site. -/
def setup (b : Workbench σ) (g : Graph) (site : Run.Site) : Run.Setup σ :=
  ⟨g, site, b.policy, b.workers, b.engines, b.store⟩

/-- Uses a graph in a mode. -/
def use (b : Workbench σ) (g : Graph) (mode : Mode) (store : σ) : Use σ :=
  match mode with
  | .run site =>
    let e := (b.setup g site).run store b.stopAsked
    ⟨e.outcome.map .executed, e.store, e.log⟩
  | .analyze => ⟨.ok (.analyzed (Forecast.ofGraph b.model g)), store, []⟩
  | .generate => ⟨(Plan.ofGraph b.provider b.hooks g).map .generated, store, []⟩

/-- Reads a mode and uses a graph in it. -/
def dispatch (b : Workbench σ) (g : Except Fault Graph) (mode : String) (store : σ) : Use σ :=
  match Mode.ofText mode with
  | .error fault => ⟨.error fault, store, []⟩
  | .ok mode =>
    match g with
    | .error fault => ⟨.error fault, store, []⟩
    | .ok g => b.use g mode store

end Workbench

end Provenance
