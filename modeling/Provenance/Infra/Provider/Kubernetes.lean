import Provenance.Infra.Naming
import Provenance.Infra.Provider

/-! # Kubernetes as provider

A claim holds data; a step is a job with a service account and a role that may look at the claims which
the job mounts. There are no tables. -/

namespace Provenance.Kubernetes

/-- The longest name. -/
def room : Nat := 52

/-- The name of the job of a step. -/
def jobName (s : Step) : String := Naming.step s room '-'

/-- A resource in a namespace. -/
def inSpace (space kind name : String) : Resource := (Resource.plain kind name).text "namespace" space

/-- The claim of an asset. -/
def claim (space : String) (a : Asset) (spec : StorageSpec) : Except Fault Resource :=
  let make := fun storageClass =>
    inSpace space "kubernetes_persistent_volume_claim" (Naming.storage a.address room '-')
      |>.text "storage_class_name" storageClass
      |>.set "access_modes" (.texts ["ReadWriteMany"])
      |>.text "storage" "10Gi"
      |>.text "format" spec.format.extension
  match spec.medium with
  | .volume => .ok (make "standard")
  | .objectStore => .ok (make "csi-s3")
  | .table => .error (.compilation a.address.text .tableStorage "kubernetes")

/-- The mount of a claim; what is read cannot be written. -/
def mount (access : Access) (a : Asset) (r : Resource) : Json :=
  .fields [
    ("claim_name", .text r.name),
    ("mount_path", .text ("/data/" ++ a.address.name)),
    ("read_only", .bool (access == .read))]

/-- The service account of a step. -/
def account (space : String) (s : Step) : Resource :=
  inSpace space "kubernetes_service_account" (jobName s)

/-- The role of a step. -/
def role (space : String) (s : Step) (claims : List Resource) : Resource :=
  (inSpace space "kubernetes_role" (jobName s)
    |>.set "rules" (.list [.fields [
        ("api_groups", .texts [""]),
        ("resources", .texts ["persistentvolumeclaims"]),
        ("resource_names", .texts (claims.map (·.name))),
        ("verbs", .texts ["get"])]])).dependAll (claims.map Resource.id)

/-- What gives a step its role. -/
def roleBinding (space : String) (s : Step) (claims : List Resource) : Resource :=
  inSpace space "kubernetes_role_binding" (jobName s)
    |>.text "role" (jobName s)
    |>.text "subject" (jobName s)
    |>.depend (role space s claims).id
    |>.depend (account space s).id

/-- The job of a step. -/
def job (space image : String) (s : Step) (volumes : List Json) : Resource :=
  let t := s.task.target
  inSpace space "kubernetes_job" (jobName s)
    |>.text "image" image
    |>.set "args" (.texts ["run", "--task", s.task.name])
    |>.set "parallelism" (.nat (max (max t.workers t.concurrency) 1).toNat)
    |>.set "cpu" (.float t.vcpus)
    |>.text "memory" (toString t.memoryMb ++ "Mi")
    |>.set "active_deadline_seconds" (.nat t.timeoutSecs.toNat)
    |>.text "service_account_name" (jobName s)
    |>.set "volumes" (.list volumes)

/-- The job that starts a step. -/
def cronJob (space : String) (s : Step) (schedule : Schedule) (runner : ResourceId) : Resource :=
  inSpace space "kubernetes_cron_job" (jobName s)
    |>.text "schedule" schedule.cron
    |>.text "concurrency_policy" "Forbid"
    |>.text "job_template" runner
    |>.setSome "time_zone" (schedule.timezone.map .text)

/-- The selection of the figures of a step. -/
def selector (space : String) (s : Step) : String :=
  "\x7bnamespace=\"" ++ space ++ "\",job_name=~\"" ++ jobName s ++ ".*\"\x7d > "

/-- The rules under which a step raises an alert. -/
def rules (space : String) (s : Step) (m : Monitoring) : List Json :=
  (if m.alertOnFailure then
    [.fields [
      ("alert", .text "LineageJobFailed"),
      ("expr", .text ("kube_job_status_failed" ++ selector space s ++ "0"))]]
  else []) ++
    (m.maxDurationSecs.map fun secs =>
      Json.fields [
        ("alert", .text "LineageJobSlow"),
        ("expr", .text ("time() - kube_job_status_start_time" ++ selector space s ++
          toString secs))]).toList

/-- The manifest of the rules, if there are any. -/
def alerts (space : String) (s : Step) (m : Monitoring) : List Resource :=
  match rules space s m with
  | [] => []
  | rs =>
    [inSpace space "kubernetes_manifest" (jobName s ++ "-alerts")
      |>.text "api_version" "monitoring.coreos.com/v1"
      |>.text "manifest_kind" "PrometheusRule"
      |>.set "groups" (.list [.fields [("name", .text (jobName s)), ("rules", .list rs)]])
      |>.set "receivers" (.texts m.notify)]

/-- A namespace of Kubernetes, and the image that runs tasks. -/
def provider (space image : String) : Provider where
  name := "kubernetes"
  nameFor a := Naming.storage a.address room '-'
  storage a spec := claim space a spec
  compute s bs :=
    let used := stored bs
    let claims := used.map (·.2.2)
    .ok ⟨job space image s (used.map fun (access, a, r) => mount access a r),
      [account space s, role space s claims, roleBinding space s claims]⟩
  schedule s schedule runner := .ok (cronJob space s schedule runner)
  monitoring s m _ := .ok (alerts space s m)

/-- The usual namespace. -/
def usualSpace : String := "lineage"

/-- The usual image. -/
def usualImage : String := "ghcr.io/lineage/runner:latest"

end Provenance.Kubernetes
