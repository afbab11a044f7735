import Provenance.Json.Record
import Provenance.Target

/-! # Compute targets as JSON -/

namespace Provenance

open Json.Record

/-- Reads a kind of target. -/
def TargetKind.reader : Reader TargetKind :=
  choice ([.host, .serverless, .cluster].map fun k => (TargetKind.word k, k))

/-- Reads a word of 32 bits. -/
def word32 : Reader UInt32 := fun depth s => (natBelow UInt32.size depth s).map UInt32.ofNat

/-- Reads a word of 64 bits. -/
def word64 : Reader UInt64 := fun depth s => (natBelow UInt64.size depth s).map UInt64.ofNat

/-- The JSON form of a target. -/
def Target.toJson (t : Target) : Json :=
  .object [
    ("name", .text t.name),
    ("kind", .text t.kind.word),
    ("memory_mb", .nat t.memoryMb.toNat),
    ("vcpus", .float t.vcpus),
    ("concurrency", .nat t.concurrency.toNat),
    ("workers", .nat t.workers.toNat),
    ("machine_type", .option .text t.machineType),
    ("region", .option .text t.region),
    ("timeout_secs", .nat t.timeoutSecs.toNat),
    ("expected_duration_secs", .option (fun n => .nat n.toNat) t.expectedSecs)]

/-- Reads a target. -/
def Target.reader : Reader Target := fun depth s => do
  let (depth, ps) ← parts ["name", "kind", "memory_mb", "vcpus", "concurrency", "workers",
    "machine_type", "region", "timeout_secs", "expected_duration_secs"] false depth s
  match ps with
  | [name, kind, memory, vcpus, concurrency, workers, machine, region, timeout, expected] =>
    return ⟨← required string depth name, ← required TargetKind.reader depth kind,
      ← required word32 depth memory, ← required float depth vcpus,
      ← required word32 depth concurrency, ← required word32 depth workers,
      ← nullable string depth machine, ← nullable string depth region,
      ← required word64 depth timeout, ← nullable word64 depth expected⟩
  | _ => none

end Provenance
