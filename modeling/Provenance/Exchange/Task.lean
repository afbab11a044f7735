import Provenance.Exchange.Target
import Provenance.Task

/-! # Tasks, schedules and monitoring as JSON -/

namespace Provenance

open Json.Record

/-- The JSON form of a schedule. -/
def Schedule.toJson (s : Schedule) : Json :=
  .object [("cron", .text s.cron), ("timezone", .option .text s.timezone)]

/-- Reads a schedule. -/
def Schedule.reader : Reader Schedule := fun depth s => do
  let (depth, ps) ← parts ["cron", "timezone"] false depth s
  match ps with
  | [cron, timezone] => return ⟨← required string depth cron, ← nullable string depth timezone⟩
  | _ => none

/-- The JSON form of monitoring. -/
def Monitoring.toJson (m : Monitoring) : Json :=
  .object [
    ("alert_on_failure", .bool m.alertOnFailure),
    ("max_duration_secs", .option (fun n => .nat n.toNat) m.maxDurationSecs),
    ("notify", .texts m.notify)]

/-- Reads monitoring. -/
def Monitoring.reader : Reader Monitoring := fun depth s => do
  let (depth, ps) ← parts ["alert_on_failure", "max_duration_secs", "notify"] false depth s
  match ps with
  | [alert, longest, notify] =>
    return ⟨← required bool depth alert, ← nullable word64 depth longest,
      ← required (listOf string) depth notify⟩
  | _ => none

/-- The JSON form of a task, without its body. -/
def Task.toJson (t : Task) : Json :=
  .object [
    ("name", .text t.name),
    ("params", .texts t.params),
    ("resource", t.target.toJson),
    ("schedule", .option Schedule.toJson t.schedule),
    ("monitoring", .option Monitoring.toJson t.monitoring)]

end Provenance
