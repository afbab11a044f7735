import Provenance.Exchange.Target
import Provenance.Forecast.Basic

/-! # Cost models and forecasts as JSON -/

namespace Provenance

open Json.Record

namespace CostModel

/-- The names of the numbers of a cost model, in their order. -/
def names : List String :=
  ["serverless_gb_second_usd", "serverless_request_usd", "serverless_cold_start_secs",
    "distributed_node_hour_usd", "distributed_startup_secs", "default_local_secs",
    "default_serverless_secs", "default_distributed_secs"]

/-- The numbers of a cost model, in their order. -/
def numbers (m : CostModel Float) : List Float :=
  [m.serverlessGbSecond, m.serverlessRequest, m.serverlessColdStart, m.clusterNodeHour,
    m.clusterStartup, m.hostDefault, m.serverlessDefault, m.clusterDefault]

/-- The cost model with some numbers. -/
def ofNumbers? : List Float → Option (CostModel Float)
  | [a, b, c, d, e, f, g, h] => some ⟨a, b, c, d, e, f, g, h⟩
  | _ => none

/-- The JSON form of a cost model. -/
def toJson (m : CostModel Float) : Json := .object (names.zip (m.numbers.map .float))

/-- Reads a cost model; numbers that are missing are the usual ones. -/
def reader : Reader (CostModel Float) := fun depth s => do
  let (depth, ps) ← parts names true depth s
  let numbers ← (ps.zip usual.numbers).mapM fun (part, fallback) =>
    defaulted fallback float depth part
  ofNumbers? numbers

/-- The usual cost model with the numbers of a JSON object in place of some. -/
def ofJson? (j : Json) : Option (CostModel Float) := do
  let numbers ← (names.zip usual.numbers).mapM fun (name, fallback) =>
    match j.field? name with
    | none => some fallback
    | some value => value.float?
  ofNumbers? numbers

end CostModel

/-- The JSON form of an estimate. -/
def StepForecast.toJson (s : StepForecast Float) : Json :=
  .object [
    ("step", .nat s.step),
    ("order", .nat s.order),
    ("task", .text s.task),
    ("output", .text s.output),
    ("resource", .text s.resource),
    ("kind", .text s.kind.word),
    ("runtime_secs", .float s.runtime),
    ("cost_usd", .float s.cost),
    ("latency_secs", .float s.latency),
    ("finish_secs", .float s.finish)]

/-- Reads an estimate. -/
def StepForecast.reader : Reader (StepForecast Float) := fun depth s => do
  let (depth, ps) ← parts ["step", "order", "task", "output", "resource", "kind", "runtime_secs",
    "cost_usd", "latency_secs", "finish_secs"] false depth s
  match ps with
  | [step, order, task, output, resource, kind, runtime, cost, latency, finish] =>
    return ⟨← required (natBelow UInt64.size) depth step, ← required (natBelow UInt64.size) depth order,
      ← required string depth task, ← required string depth output, ← required string depth resource,
      ← required TargetKind.reader depth kind, ← required float depth runtime,
      ← required float depth cost, ← required float depth latency, ← required float depth finish⟩
  | _ => none

/-- The JSON form of a forecast. -/
def Forecast.toJson (f : Forecast Float) : Json :=
  .object [
    ("steps", .list (f.steps.map StepForecast.toJson)),
    ("total_cost_usd", .float f.totalCost),
    ("sequential_latency_secs", .float f.sequentialLatency),
    ("critical_path_latency_secs", .float f.criticalLatency),
    ("critical_path", .texts f.criticalPath),
    ("visualization", .text f.drawing)]

/-- Reads a forecast. -/
def Forecast.reader : Reader (Forecast Float) := fun depth s => do
  let (depth, ps) ← parts ["steps", "total_cost_usd", "sequential_latency_secs",
    "critical_path_latency_secs", "critical_path", "visualization"] false depth s
  match ps with
  | [steps, total, sequential, critical, path, drawing] =>
    return ⟨← required (listOf StepForecast.reader) depth steps, ← required float depth total,
      ← required float depth sequential, ← required float depth critical,
      ← required (listOf string) depth path, ← required string depth drawing⟩
  | _ => none

end Provenance
