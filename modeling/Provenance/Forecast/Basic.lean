import Provenance.Decimal.Layout
import Provenance.Forecast.Cost
import Provenance.Graph.Drawing
import Provenance.Text.Blank

/-! # Forecasts

A forecast estimates every step of a graph and adds up. If every step starts as soon as the steps that
it reads from have finished, a step finishes its own latency after the slowest of them; the steps from
the start to the latest finish, each waiting for the one before, are the critical path. -/

namespace Provenance

universe u

/-- What is expected of one step. -/
structure StepForecast (ν : Type u) where
  step : StepId
  order : Nat
  task : String
  output : String
  resource : String
  kind : TargetKind
  runtime : ν
  cost : ν
  latency : ν
  finish : ν

/-- What is expected of a graph. -/
structure Forecast (ν : Type u) where
  steps : List (StepForecast ν)
  totalCost : ν
  sequentialLatency : ν
  criticalLatency : ν
  criticalPath : List String
  drawing : String

namespace Forecast

section

variable {ν : Type u} [NatCast ν] [Add ν] [Mul ν] [Div ν] [Neg ν] [LT ν] [DecidableLT ν]
  [LE ν] [DecidableLE ν]

/-- Sums up from negative zero, so that the sum of nothing keeps the sign that sums of floating point
numbers start with. -/
def total (xs : List ν) : ν := xs.foldl (· + ·) (-((0 : Nat) : ν))

/-- The steps that are estimated so far, each with the step that it waits for longest. -/
abbrev Progress (ν : Type u) := List (StepForecast ν × Option StepId)

/-- When a step finishes. -/
def finish? (done : Progress ν) (id : StepId) : Option ν :=
  (done.find? (·.1.step == id)).map (·.1.finish)

/-- The latest finish among steps, and the first step that has it. -/
def slowest (done : Progress ν) (ids : List StepId) : ν × Option StepId :=
  ids.foldl
    (fun (start, who) id =>
      let finish := (finish? done id).getD ((0 : Nat) : ν)
      if who.isNone ∨ finish > start then (finish, some id) else (start, who))
    (((0 : Nat) : ν), none)

/-- Estimates a step after those before it. -/
def advance (m : CostModel ν) (g : Graph) (done : Progress ν) (s : Step) : Progress ν :=
  let e := m.estimate s.task.target
  let (start, after) := slowest done (g.upstream s.id)
  done ++ [(⟨s.id, done.length, s.task.name, s.output.title, s.task.target.name, s.kind, e.runtime,
    e.cost, e.latency, start + e.latency⟩, after)]

/-- The estimate that finishes last; of several the first. -/
def last? (steps : List (StepForecast ν)) : Option (StepForecast ν) :=
  steps.foldl
    (fun best s =>
      match best with
      | some b => if b.finish ≥ s.finish then some b else some s
      | none => some s)
    none

/-- The tasks from a step back to one that waits for none; at most `fuel` of them. -/
def back (done : Progress ν) : Nat → Option StepId → List String
  | 0, _ => []
  | _, none => []
  | fuel + 1, some id =>
    match done.find? (·.1.step == id) with
    | none => []
    | some (s, after) => s.task :: back done fuel after

/-- Forecasts a graph. -/
def ofGraph (m : CostModel ν) (g : Graph) : Forecast ν :=
  let done := g.steps.foldl (advance m g) []
  let steps := done.map (·.1)
  let last := last? steps
  { steps
    totalCost := total (steps.map (·.cost))
    sequentialLatency := total (steps.map (·.latency))
    criticalLatency := (last.map (·.finish)).getD ((0 : Nat) : ν)
    criticalPath := (back done done.length (last.map (·.step))).reverse
    drawing := (Drawing.ofGraph g).mermaid }

end

/-- The estimate of a step. -/
def step? {ν : Type u} (f : Forecast ν) (id : StepId) : Option (StepForecast ν) :=
  f.steps.find? (·.step == id)

/-- One line of the table. -/
def row (number task output kind latency cost : String) : String :=
  Text.padRight 4 number ++ " " ++ Text.padRight 24 task ++ " " ++ Text.padRight 24 output ++ " " ++
    Text.padRight 12 kind ++ " " ++ Text.padLeft 10 latency ++ " " ++ Text.padLeft 12 cost ++ "\n"

/-- A table of the steps, with the totals below it. Seconds have one place and prices six. -/
def table (f : Forecast Float) : String :=
  row "#" "task" "output" "kind" "latency_s" "cost_usd" ++
    String.join (f.steps.map fun s =>
      row (toString (s.order + 1)) s.task s.output s.kind.word (Decimal.fixed 1 s.latency)
        (Decimal.fixed 6 s.cost)) ++
    "total cost:            $" ++ Decimal.fixed 6 f.totalCost ++ "\n" ++
    "sequential latency:    " ++ Decimal.fixed 1 f.sequentialLatency ++ "s\n" ++
    "critical path latency: " ++ Decimal.fixed 1 f.criticalLatency ++ "s\n" ++
    "critical path:         " ++ " -> ".intercalate f.criticalPath

end Forecast

end Provenance
