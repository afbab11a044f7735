import Provenance.Run.Setup
import Provenance.Text.Whole

/-! # Settings

Settings come from named texts, such as the variables of an environment. A text that is there has to
make sense; what is missing has a default. -/

namespace Provenance

/-- The settings of a run. -/
structure Settings where
  workers : Nat
  policy : Run.Policy
  root : String
  logFilter : String
  region : String

namespace Settings

/-- The settings without any texts, on a machine with a number of processors. -/
def usual (processors : Nat) : Settings :=
  ⟨processors, .boundaries, "./lineage-data", "info", "us-east-1"⟩

/-- The names of the texts. -/
def workersName : String := "LINEAGE_MAX_WORKERS"
def policyName : String := "LINEAGE_MATERIALIZE"
def rootName : String := "LINEAGE_STORAGE_ROOT"
def logName : String := "LINEAGE_LOG"
def regionName : String := "LINEAGE_REGION"

/-- Reads a number of workers, at least one. -/
def workersOf (text : String) : Except Fault Nat :=
  match Text.natBelow? UInt64.size (Text.trim text) with
  | none => .error (.settings (.workersUnreadable text))
  | some 0 => .error (.settings .workersZero)
  | some n => .ok n

/-- The settings that named texts make. -/
def ofTexts (processors : Nat) (text? : String → Option String) : Except Fault Settings := do
  let s := usual processors
  let workers ← ((text? workersName).map workersOf).getD (.ok s.workers)
  let policy ← ((text? policyName).map Run.Policy.ofText).getD (.ok s.policy)
  return ⟨workers, policy, (text? rootName).getD s.root, (text? logName).getD s.logFilter,
    (text? regionName).getD s.region⟩

end Settings

end Provenance
