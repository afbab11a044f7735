/-! # Compute targets

A target is the machine, function or cluster that a task is bound to. The bounds of its numbers are
those of machine words. -/

namespace Provenance

/-- The kind of a target. -/
inductive TargetKind where
  | host
  | serverless
  | cluster
  deriving DecidableEq, Repr

namespace TargetKind

/-- The word for a kind. -/
def word : TargetKind → String
  | host => "local"
  | serverless => "serverless"
  | cluster => "distributed"

/-- The place of a kind in listings. -/
def rank : TargetKind → Nat
  | host => 0
  | serverless => 1
  | cluster => 2

end TargetKind

/-- What a task is bound to. -/
structure Target where
  name : String
  kind : TargetKind
  memoryMb : UInt32
  vcpus : Float
  concurrency : UInt32
  workers : UInt32
  machineType : Option String
  region : Option String
  timeoutSecs : UInt64
  expectedSecs : Option UInt64

namespace Target

/-- A target with the usual sizes. -/
def plain (name : String) (kind : TargetKind) : Target :=
  ⟨name, kind, 1024, 1.0, 1, 0, none, none, 900, none⟩

/-- The machine that the pipeline itself runs on. -/
def host (name : String) : Target := plain name .host

/-- A function without a server of its own. -/
def serverless (name : String) : Target := plain name .serverless

/-- A cluster of at least one worker. -/
def cluster (name : String) (workers : UInt32) : Target :=
  { plain name .cluster with
    workers := max workers 1
    memoryMb := 8192
    vcpus := 4.0
    machineType := some "n2-standard-4"
    timeoutSecs := 3600 }

/-- The target of a task that names none. -/
def default : Target := host "local"

/-- The target with a number of parallel calls, at least one. -/
def withConcurrency (t : Target) (n : UInt32) : Target := { t with concurrency := max n 1 }

/-- A line about the target. -/
def text (t : Target) : String :=
  match t.kind with
  | .host => t.name ++ " (local)"
  | .serverless =>
    t.name ++ " (serverless, " ++ toString t.memoryMb ++ " MiB x" ++ toString t.concurrency ++ ")"
  | .cluster =>
    t.name ++ " (distributed, " ++ toString t.workers ++ " x " ++ t.machineType.getD "default" ++ ")"

end Target

end Provenance
