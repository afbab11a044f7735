import Provenance.Disk.Basic
import Provenance.Store.Basic
import Provenance.Table

/-! # Storage in a folder

The location of an asset is the path of its file below a root. The scheme of a location becomes the
first directory, and the file gets the extension of its format unless it has it. A location that could
lead anywhere but below the root is refused.

Data is written beside the file and then moved over it, so the file is never half written. -/

namespace Provenance.Folder

/-- The text before and after the first mark between scheme and path. -/
def splitScheme : List Char → Option (List Char × List Char)
  | ':' :: '/' :: '/' :: rest => some ([], rest)
  | c :: rest => (splitScheme rest).map fun (scheme, path) => (c :: scheme, path)
  | [] => none

/-- A text without the slashes in front. -/
def bareText (cs : List Char) : String := String.ofList (cs.dropWhile (· = '/'))

/-- The path that a location names below a root. -/
def relative (location : String) : String :=
  match splitScheme location.toList with
  | some (scheme, path) => Disk.Path.join (String.ofList scheme) (bareText path)
  | none => bareText location.toList

/-- Whether every component of a path is a name. -/
def staysBelow (path : String) : Bool :=
  (Disk.Path.components path).all fun c =>
    match c with
    | .name _ => true
    | _ => false

/-- A path with an extension; one that it has is not doubled. -/
def withExtension (path extension : String) : String :=
  if Disk.Path.extension? path = some extension then path
  else Disk.Path.withFileName path ((Disk.Path.fileName? path).getD "" ++ "." ++ extension)

/-- The file of an asset. -/
def path (root : String) (a : Asset) : Except Fault String :=
  let inner := relative a.address.location
  if staysBelow inner then .ok (withExtension (Disk.Path.join root inner) a.format.extension)
  else .error (Store.fault a .outsideRoot)

/-- The schema beside a table. -/
def schemaPath (path : String) : String := path ++ ".schema"

/-- The place where a file is written before it is moved. -/
def staging (path : String) : String := path ++ ".partial"

/-- The schema that stands beside a table, if it can be read. -/
def schema? (d : Disk) (path : String) : Option Table.Schema :=
  match d.read (schemaPath path) with
  | .ok bytes => Json.Record.readBytes? Table.Schema.reader bytes
  | .error _ => none

/-- The data in a file. -/
def readFile (d : Disk) (path : String) (format : Format) : Except FileFault Dataset :=
  match d.read path with
  | .error fault => .error (.disk fault)
  | .ok bytes =>
    match format with
    | .csv => Table.read bytes (schema? d path)
    | .json =>
      match Dataset.ofBytes? bytes with
      | some data => .ok data
      | none => .error .json

/-- The changes of the disk that write data to a file, and the fault that stops the writing after
them. -/
def changes (path : String) (format : Format) (data : Dataset) :
    List Disk.Change × Option FileFault :=
  let directories := Disk.Change.makeDirectories (Disk.Path.parent path)
  match format with
  | .csv =>
    let schema := Table.Schema.ofData data
    let (text, fault) := Table.write data schema
    let first := [directories, .writeFile (staging path) (Text.encode text)]
    match fault with
    | some fault => (first, some (.csv fault))
    | none =>
      (first ++ [
        .writeFile (staging (schemaPath path)) (Text.encode schema.toJson.compact),
        .rename (staging (schemaPath path)) (schemaPath path),
        .rename (staging path) path], none)
  | .json =>
    ([directories, .writeFile (staging path) (Text.encode data.toJson.pretty),
      .rename (staging path) path], none)

/-- Writes data to a file. -/
def writeFile (path : String) (format : Format) (data : Dataset) (d : Disk) :
    Except FileFault Unit × Disk :=
  let (cs, stop) := changes path format data
  match Disk.applyAll cs d with
  | (.error fault, d) => (.error (.disk fault), d)
  | (.ok _, d) =>
    match stop with
    | some fault => (.error fault, d)
    | none => (.ok (), d)

/-- Names the file in a fault. -/
def explain {α : Type} (a : Asset) (path : String) : Except FileFault α → Except Fault α
  | .ok x => .ok x
  | .error cause => .error (Store.fault a (.file path cause))

/-- A folder as a storage. -/
def store (root : String) : Store Disk where
  kind := "filesystem"
  read a d :=
    ((path root a).bind fun path => explain a path (readFile d path a.format), d)
  write a data d :=
    match path root a with
    | .error fault => (.error fault, d)
    | .ok path =>
      let (result, d) := writeFile path a.format data d
      (explain a path result, d)
  holds a d := ((path root a).map d.isFile, d)

end Provenance.Folder
