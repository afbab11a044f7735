import Provenance.Cron
import Provenance.Infra.Naming
import Provenance.Infra.Provider

/-! # AWS as provider

Buckets, catalog tables and file systems hold data; a step is a function with a role of its own, and for
each storage that it touches the role gets a policy. Clusters are not offered, a function runs for at
most fifteen minutes, and schedules have to fit EventBridge. -/

namespace Provenance.Aws

/-- The longest name of storage. -/
def room : Nat := 63

/-- The longest name of a policy. -/
def policyRoom : Nat := 128

/-- The longest running time of a function, in seconds. -/
def longestRun : UInt64 := 900

/-- The database that holds all tables. -/
def database : String := "lineage"

/-- The name of the function of a step; its role adds five characters. -/
def functionName (s : Step) : String := Naming.step s 59 '-'

/-- The storage of an asset. -/
def store (region : String) (a : Asset) (spec : StorageSpec) : Resource :=
  let name := Naming.storage a.address room '-'
  let days := spec.retentionDays.map fun d => Json.nat d.toNat
  match spec.medium with
  | .objectStore =>
    Resource.plain "aws_s3_bucket" name
      |>.text "bucket" name
      |>.text "region" region
      |>.set "versioning" (.bool spec.versioned)
      |>.text "format" spec.format.extension
      |>.setSome "lifecycle_expiration_days" days
  | .table =>
    Resource.plain "aws_glue_catalog_table" name
      |>.text "name" (Text.swap '-' '_' name)
      |>.text "database_name" database
      |>.text "location" a.address.location
      |>.text "format" spec.format.extension
      |>.set "retention_days" (days.getD .null)
  | .volume =>
    Resource.plain "aws_efs_file_system" name
      |>.text "creation_token" name
      |>.set "encrypted" (.bool true)
      |>.text "region" region

/-- The names under which policies speak of a storage. -/
def arns (region : String) (r : Resource) : List String :=
  if r.kind = "aws_s3_bucket" then ["arn:aws:s3:::" ++ r.name, "arn:aws:s3:::" ++ r.name ++ "/*"]
  else if r.kind = "aws_glue_catalog_table" then
    ["arn:aws:glue:" ++ region ++ ":*:table/" ++ database ++ "/" ++ Text.swap '-' '_' r.name]
  else ["arn:aws:elasticfilesystem:" ++ region ++ ":*:file-system/" ++ r.name]

/-- What a policy allows on a kind of storage. -/
def actions (kind : String) (access : Access) : List String :=
  if kind = "aws_s3_bucket" then
    ["s3:GetObject", "s3:ListBucket"] ++
      match access with
      | .read => []
      | .write => ["s3:PutObject", "s3:DeleteObject"]
  else if kind = "aws_glue_catalog_table" then
    ["glue:GetTable", "glue:GetPartitions"] ++
      match access with
      | .read => []
      | .write => ["glue:UpdateTable", "glue:BatchCreatePartition"]
  else
    ["elasticfilesystem:ClientMount"] ++
      match access with
      | .read => []
      | .write => ["elasticfilesystem:ClientWrite"]

/-- The role of a step. -/
def role (s : Step) : Resource :=
  (Resource.plain "aws_iam_role" (functionName s ++ "-role")).text "assume_role_service"
    "lambda.amazonaws.com"

/-- The function of a step. -/
def function (region : String) (s : Step) : Resource :=
  let t := s.task.target
  Resource.plain "aws_lambda_function" (functionName s)
    |>.text "function_name" (functionName s)
    |>.text "handler" s.task.name
    |>.text "runtime" "provided.al2023"
    |>.set "memory_size" (.nat t.memoryMb.toNat)
    |>.set "timeout" (.nat (min t.timeoutSecs longestRun).toNat)
    |>.set "reserved_concurrent_executions" (.nat t.concurrency.toNat)
    |>.text "region" (t.region.getD region)
    |>.text "role" (role s).id

/-- The policy of a step on a storage. -/
def policy (region : String) (s : Step) (access : Access) (r : Resource) : Resource :=
  let lead := functionName s ++ "-" ++ access.word ++ "-"
  let rest := min (policyRoom - lead.utf8ByteSize) room
  Resource.plain "aws_iam_role_policy" (lead ++ Naming.sanitize r.name rest '-')
    |>.text "role" (role s).id
    |>.set "policy" (.fields [
        ("Version", .text "2012-10-17"),
        ("Statement", .list [.fields [
          ("Effect", .text "Allow"),
          ("Action", .texts (actions r.kind access)),
          ("Resource", .texts (arns region r))]])])
    |>.depend r.id
    |>.depend (role s).id

/-- The rule that starts a step. -/
def rule (s : Step) (schedule : Schedule) (runner : ResourceId) : Except Fault Resource :=
  match Cron.eventBridge? schedule.cron with
  | none => .error (.compilation s.origin (.cron schedule.cron) "aws")
  | some expression =>
    .ok (Resource.plain "aws_cloudwatch_event_rule" (functionName s ++ "-schedule")
      |>.text "schedule_expression" expression
      |>.text "target" runner
      |>.setSome "schedule_expression_timezone" (schedule.timezone.map .text))

/-- An alarm on a figure of a function. -/
def alarm (s : Step) (m : Monitoring) (ending metric statistic : String) (threshold : UInt64) :
    Resource :=
  Resource.plain "aws_cloudwatch_metric_alarm" (functionName s ++ ending)
    |>.text "namespace" "AWS/Lambda"
    |>.text "metric_name" metric
    |>.text "statistic" statistic
    |>.text "comparison_operator" "GreaterThanThreshold"
    |>.set "threshold" (.nat threshold.toNat)
    |>.set "dimensions" (.fields [("FunctionName", .text (functionName s))])
    |>.set "alarm_actions" (.texts m.notify)

/-- A duration in milliseconds. The product of words of 64 bits overflows where it does not fit. -/
def millis (secs : UInt64) : Except Fault UInt64 :=
  if 1000 * secs.toNat < UInt64.size then .ok (secs * 1000) else .error .overflow

/-- The alarms of a step; durations are watched in milliseconds. -/
def alarms (s : Step) (m : Monitoring) : Except Fault (List Resource) := do
  let errors := if m.alertOnFailure then [alarm s m "-errors" "Errors" "Sum" 0] else []
  match m.maxDurationSecs with
  | none => return errors
  | some secs => return errors ++ [alarm s m "-duration" "Duration" "Maximum" (← millis secs)]

/-- AWS in a region. -/
def provider (region : String) : Provider where
  name := "aws"
  nameFor a := Naming.storage a.address room '-'
  storage a spec := .ok (store region a spec)
  compute s bs :=
    if s.kind = .cluster then .error (.compilation s.origin .distributedCompute "aws")
    else .ok ⟨function region s, role s :: (stored bs).map fun (access, _, r) => policy region s access r⟩
  schedule s schedule runner := rule s schedule runner
  monitoring s m _ := alarms s m

/-- The usual region. -/
def usualRegion : String := "us-east-1"

end Provenance.Aws
