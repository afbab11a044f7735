import Provenance.Exchange.Run
import Provenance.Settings

/-! # Settings as JSON -/

namespace Provenance.Settings

open Json.Record

/-- The JSON form of settings. -/
def toJson (s : Settings) : Json :=
  .object [
    ("max_workers", .nat s.workers),
    ("materialize", .text s.policy.word),
    ("storage_root", .text s.root),
    ("log_filter", .text s.logFilter),
    ("region", .text s.region)]

/-- Reads settings; parts that are missing are the usual ones. -/
def reader (processors : Nat) : Reader Settings := fun depth s => do
  let (depth, ps) ← parts ["max_workers", "materialize", "storage_root", "log_filter", "region"]
    true depth s
  let u := usual processors
  match ps with
  | [workers, policy, root, log, region] =>
    return ⟨← defaulted u.workers (natBelow UInt64.size) depth workers,
      ← defaulted u.policy Run.Policy.reader depth policy, ← defaulted u.root string depth root,
      ← defaulted u.logFilter string depth log, ← defaulted u.region string depth region⟩
  | _ => none

end Provenance.Settings
