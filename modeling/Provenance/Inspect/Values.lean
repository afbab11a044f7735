import Provenance.Inspect.Form
import Provenance.Run.Setup

/-! # Assets, tasks, steps, runs and faults for inspection -/

namespace Provenance

open Form

/-- An address, shown. -/
def Address.form (a : Address) : Form :=
  record "StorageId" [("name", quoted a.name), ("location", quoted a.location)]

/-- A label, shown. -/
def Label.form (l : Label) : Form :=
  record "NodeMetadata"
    [("display_name", quoted l.title), ("description", option quoted l.description)]

/-- A kind of place that holds data, shown. -/
def Medium.form : Medium → Form
  | objectStore => atom "ObjectStore"
  | table => atom "Table"
  | volume => atom "Volume"

/-- A format of files, shown. -/
def Format.form : Format → Form
  | csv => atom "Csv"
  | json => atom "Json"

/-- A storage declaration, shown. -/
def StorageSpec.form (s : StorageSpec) : Form :=
  record "StorageConfig"
    [("class", s.medium.form), ("format", s.format.form), ("versioned", Form.bool s.versioned),
      ("retention_days", option (fun d => number d.toNat) s.retentionDays)]

/-- An asset, shown; `producer` is the task that its handle comes from. -/
def Asset.form (a : Asset) (producer : Option String) : Form :=
  record "StorageNode"
    [("id", a.address.form), ("metadata", option Label.form a.label),
      ("storage", option StorageSpec.form a.storage), ("producer", option quoted producer)]

/-- A schedule, shown. -/
def Schedule.form (s : Schedule) : Form :=
  record "Schedule" [("cron", quoted s.cron), ("timezone", option quoted s.timezone)]

/-- Monitoring, shown. -/
def Monitoring.form (m : Monitoring) : Form :=
  record "Monitoring"
    [("alert_on_failure", Form.bool m.alertOnFailure),
      ("max_duration_secs", option (fun n => number n.toNat) m.maxDurationSecs),
      ("notify", quotedAll m.notify)]

/-- A task, shown. -/
def Task.form (t : Task) : Form :=
  record "Task"
    [("name", quoted t.name), ("params", quotedAll t.params), ("resource", quoted t.target.name),
      ("schedule", option Schedule.form t.schedule),
      ("monitoring", option Monitoring.form t.monitoring)]

/-- A step, shown. -/
def Step.form (s : Step) : Form :=
  record "TransformStep"
    [("id", group "StepId" [number s.id]), ("task", quoted s.task.name),
      ("inputs", quotedAll (s.inputs.map fun i => i.1 ++ "=" ++ i.2.address.text)),
      ("output", s.output.address.form), ("replaces", Form.bool s.replaces)]

/-- A folder, shown. -/
def folderForm (root : String) : Form := record "FsStorage" [("root", quoted root)]

/-- A compiler without hooks, shown. -/
def compilerForm (provider : String) : Form :=
  record "Compiler"
    [("backend", quoted provider), ("storage_hooks", number 0), ("compute_hooks", number 0)]

/-- A kind of target, shown. -/
def TargetKind.form : TargetKind → Form
  | host => atom "Local"
  | serverless => atom "Serverless"
  | cluster => atom "Distributed"

/-- A policy, shown. -/
def Run.Policy.form : Run.Policy → Form
  | boundaries => atom "Boundaries"
  | all => atom "All"

/-- What runs a graph, shown; engines are listed in the order of their kinds. -/
def executorForm (kind : String) (engines : List (TargetKind × Run.Engine)) (workers : Nat)
    (policy : Run.Policy) : Form :=
  let sorted := engines.mergeSort fun a b => a.1.rank ≤ b.1.rank
  let pairs := sorted.map fun e => group "" [e.1.form, quoted e.2.name]
  record "Executor"
    [("storage", quoted kind),
      ("engines", record "EngineRegistry"
        [("engines", list pairs), ("fallback", quoted Run.Engine.inProcess.name)]),
      ("max_workers", number (max workers 1)), ("materialize", policy.form)]

/-- A fault, shown. -/
def Fault.form : Fault → Form
  | cycle path => record "CyclicLineage" [("path", quotedAll path)]
  | parameterMismatch task missing unexpected =>
    record "ParameterMismatch"
      [("task", quoted task), ("missing", quotedAll missing), ("unexpected", quotedAll unexpected)]
  | arity task expected declared =>
    record "Arity"
      [("task", quoted task), ("expected", number expected), ("declared", number declared)]
  | overwrite asset task =>
    record "Overwrite" [("node", quoted asset), ("existing_task", quoted task)]
  | invalidJoin cause => group "InvalidJoin" [quoted cause.message]
  | unsupportedMode mode => record "UnsupportedMode" [("mode", quoted mode)]
  | execution step task cause =>
    record "Execution"
      [("step", quoted (stepTag step)), ("task", quoted task), ("cause", quoted cause.text)]
  | compilation origin capability provider =>
    record "Compilation"
      [("node", quoted origin), ("capability", quoted capability.text), ("backend", quoted provider)]
  | storage location reason =>
    record "Storage" [("location", quoted location), ("reason", quoted reason.message)]
  | cancelled completed => record "Cancelled" [("completed", quotedAll completed)]
  | settings cause => group "Config" [quoted cause.message]
  | overflow => group "Panic" [quoted overflow.message]

end Provenance
