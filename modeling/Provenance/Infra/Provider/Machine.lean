import Provenance.Disk.Path
import Provenance.Infra.Naming
import Provenance.Infra.Provider

/-! # One machine as provider

Storage is a directory, a step is a process, access is a permission on files, and alerts watch a log.
There is nothing that starts a process on schedule. -/

namespace Provenance.Machine

/-- The longest name. -/
def room : Nat := 64

/-- The name of a step. -/
def stepName (s : Step) : String := Naming.step s room '-'

/-- The directory of an asset. -/
def directory (root : String) (a : Asset) (spec : StorageSpec) : Resource :=
  let name := Naming.storage a.address room '-'
  ((((Resource.plain "local_directory" name).text "path" (Disk.Path.join root name)).text "class"
    spec.medium.word).text "format" spec.format.extension).set "keep_versions" (.bool spec.versioned)
    |>.setSome "retention_days" (spec.retentionDays.map fun d => .nat d.toNat)

/-- The process of a step. -/
def process (s : Step) : Resource :=
  let t := s.task.target
  Resource.plain "local_process" (stepName s)
    |>.text "task" s.task.name
    |>.set "command" (.texts ["lineage", "run", "--task", s.task.name])
    |>.set "threads" (.nat (max t.concurrency 1).toNat)
    |>.set "memory_mb" (.nat t.memoryMb.toNat)
    |>.set "timeout_secs" (.nat t.timeoutSecs.toNat)
    |>.text "requested_kind" t.kind.word

/-- The permission of a step on the directory of an asset. -/
def permission (s : Step) (access : Access) (r : Resource) : Resource :=
  let mode := match access with
    | .read => "r"
    | .write => "rw"
  Resource.plain "local_file_permission" (stepName s ++ "-" ++ Naming.sanitize r.name room '-')
    |>.set "path" ((r.property? "path").getD .null)
    |>.text "mode" mode
    |>.depend r.id

/-- The alert on the log of a step. -/
def alert (root : String) (s : Step) (m : Monitoring) : Resource :=
  Resource.plain "local_log_alert" (Naming.step s (room - 7) '-' ++ "-alerts")
    |>.text "log_file" (Disk.Path.join (Disk.Path.join root "logs") (stepName s ++ ".log"))
    |>.set "alert_on_failure" (.bool m.alertOnFailure)
    |>.set "notify" (.texts m.notify)
    |>.setSome "max_duration_secs" (m.maxDurationSecs.map fun n => .nat n.toNat)

/-- The machine whose directories stand under `root`. -/
def provider (root : String) : Provider where
  name := "local"
  nameFor a := Naming.storage a.address room '-'
  storage a spec := .ok (directory root a spec)
  compute s bs := .ok ⟨process s, (stored bs).map fun (access, _, r) => permission s access r⟩
  monitoring s m _ := .ok [alert root s m]

/-- The usual root. -/
def usualRoot : String := "./lineage-data"

end Provenance.Machine
