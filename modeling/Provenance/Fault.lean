/-! # What can go wrong

A fault is a cause, and `Fault.message` is its only wording. The causes that concern the shape of a
pipeline, found before anything runs, are called structural. One cause, an overflow of the arithmetic, is
no answer to the caller: the call ends in a panic.

All records of a comma-separated text have the length of the first. A fault in such a text says where the
record started: its number, the line and the byte at which reading it began. When a text is written there
is no such place. -/

namespace Provenance.Disk

/-- Why an operation on a path was refused. -/
inductive Fault where
  | notFound
  | busy
  | occupied
  | notDirectory
  | isDirectory
  | nameTooLong
  | zeroByte
  deriving DecidableEq, Repr

/-- The wording of a fault, with the number that systems give it. -/
def Fault.message : Fault → String
  | .notFound => "No such file or directory (os error 2)"
  | .busy => "Device or resource busy (os error 16)"
  | .occupied => "File exists (os error 17)"
  | .notDirectory => "Not a directory (os error 20)"
  | .isDirectory => "Is a directory (os error 21)"
  | .nameTooLong => "File name too long (os error 36)"
  | .zeroByte => "file name contained an unexpected NUL byte"

end Provenance.Disk

namespace Provenance.Csv

/-- Where reading of a record began; records and bytes count from zero, lines from one. -/
structure Position where
  record : Nat
  line : Nat
  byte : Nat
  deriving DecidableEq, Repr, Inhabited

/-- What is wrong with a record. -/
inductive Fault where
  | unequal (place : Option Position) (found expected : Nat)
  | badText (place : Position) (field index : Nat)
  deriving DecidableEq, Repr

/-- The wording of a fault. -/
def Fault.message : Fault → String
  | .unequal place found expected =>
    let at_ := match place with
      | none => ""
      | some p => "record " ++ toString p.record ++ " (line: " ++ toString p.line ++ ", byte: " ++
          toString p.byte ++ "): "
    "CSV error: " ++ at_ ++ "found record with " ++ toString found ++
      " fields, but the previous record has " ++ toString expected ++ " fields"
  | .badText p field index =>
    "CSV parse error: record " ++ toString p.record ++ " (line " ++ toString p.line ++ ", field: " ++
      toString field ++ ", byte: " ++ toString p.byte ++ "): invalid utf-8: invalid UTF-8 in field " ++
      toString field ++ " near byte index " ++ toString index

end Provenance.Csv

namespace Provenance

/-- The number of a step. Steps are numbered in the order of their declaration. -/
abbrev StepId := Nat

/-- How a step is named in messages. -/
def stepTag (id : StepId) : String := "#" ++ toString id

/-- Why a task gave no data. -/
inductive TaskFailure where
  | message (text : String)
  | crash
  deriving DecidableEq, Repr

/-- The wording of a task's failure. -/
def TaskFailure.text : TaskFailure → String
  | .message text => text
  | .crash => "<panic>"

/-- The failure of a task that asks for data it was not given. -/
def TaskFailure.missingInput (name : String) : TaskFailure :=
  .message ("missing input '" ++ name ++ "'")

/-- Why a file could not be used. -/
inductive FileFault where
  | disk (cause : Disk.Fault)
  | csv (cause : Csv.Fault)
  | json
  deriving DecidableEq, Repr

/-- The wording of a fault in a file. -/
def FileFault.message : FileFault → String
  | .disk cause => cause.message
  | .csv cause => cause.message
  | .json => "<json error>"

/-- Why a database file could not be used. -/
inductive DatabaseFault where
  | noTable
  | notDatabase
  | notOpened
  | notRead
  | locked
  | readOnly
  deriving DecidableEq, Repr

/-- The wording of a fault in a database file. -/
def DatabaseFault.message : DatabaseFault → String
  | .noTable => "no such table: datasets"
  | .notDatabase => "file is not a database"
  | .notOpened => "unable to open database file"
  | .notRead => "disk I/O error"
  | .locked => "database is locked"
  | .readOnly => "attempt to write a readonly database"

/-- Why a storage refused. -/
inductive StorageFault where
  | absent
  | outsideRoot
  | unreadable
  | file (path : String) (cause : FileFault)
  | database (cause : DatabaseFault)
  deriving DecidableEq, Repr

/-- The wording of a storage's refusal. -/
def StorageFault.message : StorageFault → String
  | .absent => "no data stored"
  | .outsideRoot => "location must stay under the storage root"
  | .unreadable => FileFault.json.message
  | .file path cause => path ++ ": " ++ cause.message
  | .database cause => cause.message

/-- What a provider can be unable to express. -/
inductive Capability where
  | schedule
  | monitoring
  | distributedCompute
  | localCompute
  | volumeStorage
  | tableStorage
  | cron (expression : String)
  | uniqueName (id owner : String)
  | dependency (missing dependent : String)
  deriving DecidableEq, Repr

/-- The wording of a capability. -/
def Capability.text : Capability → String
  | .schedule => "schedule"
  | .monitoring => "monitoring"
  | .distributedCompute => "distributed compute"
  | .localCompute => "local compute"
  | .volumeStorage => "volume storage"
  | .tableStorage => "table storage"
  | .cron expression => "cron expression '" ++ expression ++ "'"
  | .uniqueName id owner => "a unique resource name ('" ++ id ++ "' is taken by " ++ owner ++ ")"
  | .dependency missing dependent => "dependency '" ++ missing ++ "' of '" ++ dependent ++ "'"

/-- Why sources do not make a join. -/
inductive JoinFault where
  | repeated (name : String)
  | tooFew (count : Nat)
  deriving DecidableEq, Repr

/-- The wording of a refused join. -/
def JoinFault.message : JoinFault → String
  | .repeated name => "source name '" ++ name ++ "' given more than once"
  | .tooFew count => "a join needs at least two sources, got " ++ toString count

/-- Why settings were refused. -/
inductive SettingsFault where
  | workersUnreadable (text : String)
  | workersZero
  | policy (text : String)
  | provider (name : String)
  deriving DecidableEq, Repr

/-- The wording of refused settings. -/
def SettingsFault.message : SettingsFault → String
  | .workersUnreadable text => "LINEAGE_MAX_WORKERS must be a positive integer, got '" ++ text ++ "'"
  | .workersZero => "LINEAGE_MAX_WORKERS must be at least 1"
  | .policy text => "LINEAGE_MATERIALIZE must be 'boundaries' or 'all', got '" ++ text ++ "'"
  | .provider name =>
    "LINEAGE_BACKEND must be one of local, aws, dataproc, kubernetes; got '" ++ name ++ "'"

/-- A cause of failure. -/
inductive Fault where
  | cycle (path : List String)
  | parameterMismatch (task : String) (missing unexpected : List String)
  | arity (task : String) (expected declared : Nat)
  | overwrite (asset existingTask : String)
  | invalidJoin (cause : JoinFault)
  | unsupportedMode (mode : String)
  | execution (step : StepId) (task : String) (cause : TaskFailure)
  | compilation (origin : String) (capability : Capability) (provider : String)
  | storage (location : String) (reason : StorageFault)
  | cancelled (completed : List String)
  | settings (cause : SettingsFault)
  | overflow
  deriving DecidableEq, Repr

namespace Fault

/-- The wording of a fault. -/
def message : Fault → String
  | cycle path => "cyclic lineage: " ++ " -> ".intercalate path
  | parameterMismatch task missing unexpected =>
    "parameter mismatch for task '" ++ task ++ "': missing [" ++ ", ".intercalate missing ++
      "], unexpected [" ++ ", ".intercalate unexpected ++ "]"
  | arity task expected declared =>
    "task '" ++ task ++ "' declares " ++ toString declared ++
      " parameter(s) but a single-source transform requires " ++ toString expected
  | overwrite asset existingTask =>
    "node '" ++ asset ++ "' is already produced by task '" ++ existingTask ++
      "'; use overwrite to replace it"
  | invalidJoin cause => "invalid join: " ++ cause.message
  | unsupportedMode mode =>
    "unsupported mode '" ++ mode ++ "' (expected one of: local, cloud, analyze, generate)"
  | execution step task cause =>
    "step " ++ stepTag step ++ " (task '" ++ task ++ "') failed: " ++ cause.text
  | compilation origin capability provider =>
    "backend '" ++ provider ++ "' cannot translate " ++ capability.text ++ " for '" ++ origin ++ "'"
  | storage location reason => "storage error at '" ++ location ++ "': " ++ reason.message
  | cancelled completed => "run cancelled after " ++ toString completed.length ++ " completed step(s)"
  | settings cause => "invalid configuration: " ++ cause.message
  | overflow => "attempt to multiply with overflow"

/-- Whether a fault ends the call in a panic, so that nobody is handed it. -/
def isPanic : Fault → Bool
  | overflow => true
  | _ => false

/-- Whether a fault concerns the shape of a pipeline. -/
def isStructural : Fault → Bool
  | cycle _ | parameterMismatch .. | arity .. | overwrite .. | invalidJoin _ => true
  | _ => false

end Fault

end Provenance
