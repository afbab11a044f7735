import Provenance.Infra.Naming
import Provenance.Infra.Provider
import Provenance.Text.Blank
import Provenance.Text.Uppercase

/-! # Dataproc as provider

Buckets and BigQuery tables hold data; a step is a batch or a workflow on a cluster, and has a service
account that is made a member of the storage it touches. There are no volumes, and nothing runs on the
host. -/

namespace Provenance.Dataproc

/-- The longest name of storage. -/
def room : Nat := 63

/-- The dataset that holds all tables. -/
def dataset : String := "lineage"

/-- The milliseconds of a day. -/
def dayMillis : UInt64 := 86400000

/-- The name of the job of a step. -/
def jobName (s : Step) : String := Naming.step s 50 '-'

/-- The service account of a step. -/
def accountId (s : Step) : String := "sa-" ++ Naming.digest (Naming.identity s.output.address)

/-- The mail address of the service account of a step. -/
def email (project : String) (s : Step) : String :=
  accountId s ++ "@" ++ project ++ ".iam.gserviceaccount.com"

/-- The storage of an asset. -/
def store (project region : String) (a : Asset) (spec : StorageSpec) : Except Fault Resource :=
  let name := Naming.storage a.address room '-'
  match spec.medium with
  | .objectStore =>
    .ok (Resource.plain "google_storage_bucket" name
      |>.text "name" (project ++ "-" ++ name)
      |>.text "location" (Text.upper region)
      |>.text "project" project
      |>.set "versioning" (.bool spec.versioned)
      |>.set "uniform_bucket_level_access" (.bool true)
      |>.setSome "lifecycle_delete_age_days" (spec.retentionDays.map fun d => .nat d.toNat))
  | .table =>
    .ok (Resource.plain "google_bigquery_table" name
      |>.text "project" project
      |>.text "dataset_id" dataset
      |>.text "table_id" (Text.swap '-' '_' name)
      |>.setSome "expiration_ms"
          (spec.retentionDays.map fun d => .nat (d.toUInt64 * dayMillis).toNat))
  | .volume => .error (.compilation a.address.text .volumeStorage "dataproc")

/-- What a step runs. -/
def job (s : Step) : Json :=
  .fields [
    ("step_id", .text (Naming.sanitize s.task.name room '-')),
    ("main_class", .text "lineage.Runner"),
    ("args", .texts ["--task", s.task.name])]

/-- The runner of a step. -/
def runner (project region : String) (s : Step) : Except Fault Resource :=
  let t := s.task.target
  let name := jobName s
  let location := t.region.getD region
  match t.kind with
  | .cluster =>
    .ok (Resource.plain "google_dataproc_workflow_template" name
      |>.text "project" project
      |>.text "location" location
      |>.set "cluster" (.fields [
          ("num_workers", .nat t.workers.toNat),
          ("machine_type", .text (t.machineType.getD "n2-standard-4")),
          ("service_account", .text (email project s))])
      |>.set "job" (job s)
      |>.set "dag_timeout_secs" (.nat t.timeoutSecs.toNat))
  | .serverless =>
    .ok (Resource.plain "google_dataproc_batch" name
      |>.text "project" project
      |>.text "location" location
      |>.text "batch_id" name
      |>.set "runtime" (.fields [
          ("executor_memory_mb", .nat t.memoryMb.toNat),
          ("executor_cores", .float t.vcpus),
          ("max_executors", .nat t.concurrency.toNat)])
      |>.set "job" (job s)
      |>.text "service_account" (email project s)
      |>.set "ttl_secs" (.nat t.timeoutSecs.toNat))
  | .host => .error (.compilation s.origin .localCompute "dataproc")

/-- The service account of a step. -/
def account (project : String) (s : Step) : Resource :=
  Resource.plain "google_service_account" (accountId s)
    |>.text "account_id" (accountId s)
    |>.text "project" project
    |>.text "display_name" ("lineage " ++ s.label)

/-- The role of a member of a storage of some kind. -/
def roleOf (table : Bool) (access : Access) : String :=
  match table, access with
  | true, .read => "roles/bigquery.dataViewer"
  | true, .write => "roles/bigquery.dataEditor"
  | false, .read => "roles/storage.objectViewer"
  | false, .write => "roles/storage.objectAdmin"

/-- The membership of a step in a storage. -/
def member (project : String) (s : Step) (access : Access) (r : Resource) : Resource :=
  let name := jobName s ++ "-" ++ access.word ++ "-" ++ Naming.sanitize r.name room '-'
  let table := r.kind == "google_bigquery_table"
  let made :=
    if table then
      ((Resource.plain "google_bigquery_table_iam_member" name).text "dataset_id" dataset).set
        "table_id" ((r.property? "table_id").getD .null)
    else
      (Resource.plain "google_storage_bucket_iam_member" name).set "bucket"
        ((r.property? "name").getD .null)
  made
    |>.text "role" (roleOf table access)
    |>.text "member" ("serviceAccount:" ++ email project s)
    |>.depend r.id
    |>.depend (account project s).id

/-- The job that starts a step. -/
def scheduler (project region : String) (s : Step) (schedule : Schedule) (runner : ResourceId) :
    Resource :=
  Resource.plain "google_cloud_scheduler_job" (jobName s ++ "-schedule")
    |>.text "schedule" schedule.cron
    |>.text "time_zone" (schedule.timezone.getD "Etc/UTC")
    |>.text "region" region
    |>.text "target" runner
    |>.text "oauth_service_account_email" (email project s)

/-- The conditions under which a step raises an alert. -/
def conditions (s : Step) (m : Monitoring) : List Json :=
  let job := "resource.label.job_id=starts_with(\"" ++ jobName s ++ "\")"
  let kind := "resource.type=\"cloud_dataproc_job\" AND "
  (if m.alertOnFailure then
    [.fields [
      ("display_name", .text "job failed"),
      ("filter", .text (kind ++ "metric.label.state=\"ERROR\" AND " ++ job))]]
  else []) ++
    (m.maxDurationSecs.map fun secs =>
      Json.fields [
        ("display_name", .text "job too slow"),
        ("filter", .text (kind ++ job)),
        ("threshold_value", .nat secs.toNat)]).toList

/-- The alert on a step, if there is a condition. -/
def alerts (project : String) (s : Step) (m : Monitoring) : List Resource :=
  match conditions s m with
  | [] => []
  | cs =>
    [Resource.plain "google_monitoring_alert_policy" (jobName s ++ "-alerts")
      |>.text "project" project
      |>.text "display_name" ("lineage " ++ s.label)
      |>.set "conditions" (.list cs)
      |>.set "notification_channels" (.texts m.notify)]

/-- Dataproc in a project and a region. -/
def provider (project region : String) : Provider where
  name := "dataproc"
  nameFor a := Naming.storage a.address room '-'
  storage a spec := store project region a spec
  compute s bs :=
    (runner project region s).map fun compute =>
      ⟨compute, account project s :: (stored bs).map fun (access, _, r) => member project s access r⟩
  schedule s schedule runner := .ok (scheduler project region s schedule runner)
  monitoring s m _ := .ok (alerts project s m)

end Provenance.Dataproc
