import Provenance.Csv.Reader
import Provenance.Csv.Writer
import Provenance.Decimal.Reading
import Provenance.Exchange.Dataset
import Provenance.Fault

/-! # Tables in comma-separated text

A column whose values are all texts is written as it is; any other column is written as JSON, with
nothing for null. The schema beside a table says which column is which, so that reading gives back what
was written. Without a schema that fits, a cell is read as what it looks like. -/

namespace Provenance.Table

/-- How the cells of a column are written. -/
inductive Encoding where
  | text
  | json
  deriving DecidableEq, Repr

/-- The word for an encoding. -/
def Encoding.word : Encoding → String
  | text => "text"
  | json => "json"

/-- The columns of a table and how they are written. -/
structure Schema where
  columns : List String
  encodings : List Encoding
  deriving DecidableEq, Repr

namespace Schema

/-- The schema that data is written with. -/
def ofData (d : Dataset) : Schema :=
  ⟨d.columns, (List.range d.columns.length).map fun i =>
    if d.rows.all fun row => (row[i]?.bind Json.text?).isSome then .text else .json⟩

/-- The JSON form. -/
def toJson (s : Schema) : Json :=
  .object [("columns", .texts s.columns), ("encodings", .texts (s.encodings.map Encoding.word))]

open Json.Record in
/-- Reads the JSON form. -/
def reader : Reader Schema := fun depth s => do
  let (depth, ps) ← parts ["columns", "encodings"] false depth s
  match ps with
  | [columns, encodings] =>
    return ⟨← required (listOf string) depth columns,
      ← required (listOf (choice [("text", .text), ("json", .json)])) depth encodings⟩
  | _ => none

/-- Whether the schema says something about each of some columns. -/
def fits (s : Schema) (columns : List String) : Bool :=
  s.columns == columns && s.encodings.length == columns.length

end Schema

/-- A value as a cell. -/
def encode (value : Json) (e : Encoding) : String :=
  match e, value with
  | .text, .text s => s
  | _, .null => ""
  | _, v => v.compact

/-- The value of a cell that was written with an encoding. -/
def decode? (cell : String) (e : Encoding) : Option Json :=
  match e with
  | .text => some (.text cell)
  | .json => if cell.isEmpty then some .null else Json.ofText? cell

/-- The value that a cell looks like: nothing, a whole number, another number that is finite, a truth
value, or else a text. -/
def guess (cell : String) : Json :=
  if cell.isEmpty then .null
  else match Text.int64? cell with
    | some i => .int i
    | none =>
      match (Decimal.float? cell).filter Float.isFinite with
      | some x => .float x
      | none =>
        if cell = "true" then .bool true
        else if cell = "false" then .bool false
        else .text cell

/-- The cells of a row; values beyond the last column are left out. -/
def cells (s : Schema) (row : List Json) : List String :=
  List.zipWith encode row s.encodings

/-- The text of a table, and the fault that stopped it. -/
def write (d : Dataset) (s : Schema) : String × Option Csv.Fault :=
  Csv.write d.columns (d.rows.map (cells s))

/-- The values of a record. -/
def row (schema : Option Schema) (record : List String) : Except FileFault (List Json) :=
  match schema with
  | none => .ok (record.map guess)
  | some s =>
    match (List.zipWith decode? record s.encodings).mapM id with
    | some values => .ok values
    | none => .error .json

/-- Reads the records of a table one after the other. -/
def rows (width : Nat) (schema : Option Schema) :
    List Csv.Raw → Except FileFault (List (List Json))
  | [] => .ok []
  | r :: rest =>
    match r.read width with
    | .error fault => .error (.csv fault)
    | .ok record => do
      let values ← row schema record
      let others ← rows width schema rest
      return Dataset.fit width values :: others

/-- Reads a table; `schema` is what stands beside it. -/
def read (bytes : List UInt8) (schema : Option Schema) : Except FileFault Dataset :=
  match Csv.header bytes with
  | .error fault => .error (.csv fault)
  | .ok (columns, records) =>
    (rows columns.length (schema.filter (·.fits columns)) records).map (⟨columns, ·⟩)

end Provenance.Table
