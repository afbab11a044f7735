import Provenance.Target

/-! # What a step costs

A cost model holds prices and times. It estimates a step from the target alone, without running
anything. The numbers are of any kind with the usual operations, so that estimates can be made with
floating point numbers and reasoned about with fractions. -/

namespace Provenance

universe u

/-- A whole number as the nearest floating point number. -/
instance floatNatCast : NatCast Float := ⟨Float.ofNat⟩

/-- Prices and times. Memory is paid by the GB and second, clusters by the node and hour; the last
three are the running times of targets that expect none. -/
structure CostModel (ν : Type u) where
  serverlessGbSecond : ν
  serverlessRequest : ν
  serverlessColdStart : ν
  clusterNodeHour : ν
  clusterStartup : ν
  hostDefault : ν
  serverlessDefault : ν
  clusterDefault : ν

/-- The usual prices. -/
def CostModel.usual : CostModel Float :=
  ⟨0.0000166667, 0.0000002, 1.0, 0.19, 90.0, 60.0, 30.0, 600.0⟩

/-- What one run of a step takes. -/
structure Estimate (ν : Type u) where
  runtime : ν
  cost : ν
  latency : ν

namespace CostModel

variable {ν : Type u} [NatCast ν] [Add ν] [Mul ν] [Div ν]

/-- How long a task runs on a target. -/
def duration (m : CostModel ν) (t : Target) : ν :=
  match t.expectedSecs with
  | some secs => (secs.toNat : ν)
  | none =>
    match t.kind with
    | .host => m.hostDefault
    | .serverless => m.serverlessDefault
    | .cluster => m.clusterDefault

/-- Estimates one run on a target. The driver of a cluster is paid like a worker, and its startup is
paid too; a cold start is waited for but not paid. -/
def estimate (m : CostModel ν) (t : Target) : Estimate ν :=
  let runtime := m.duration t
  match t.kind with
  | .host => ⟨runtime, ((0 : Nat) : ν), runtime⟩
  | .serverless =>
    let gb := (t.memoryMb.toNat : ν) / ((1024 : Nat) : ν)
    ⟨runtime, gb * runtime * m.serverlessGbSecond + m.serverlessRequest,
      m.serverlessColdStart + runtime⟩
  | .cluster =>
    let nodes := (t.workers.toNat : ν) + ((1 : Nat) : ν)
    let hours := (m.clusterStartup + runtime) / ((3600 : Nat) : ν)
    ⟨runtime, nodes * m.clusterNodeHour * hours, m.clusterStartup + runtime⟩

end CostModel

end Provenance
