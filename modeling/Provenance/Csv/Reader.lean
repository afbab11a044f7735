import Provenance.Fault
import Provenance.Text.Utf8

/-! # Reading comma-separated text

The reader goes over bytes. A record ends at a line feed or a carriage return, and whatever line ends
stand before a record are skipped with it, so empty lines are no records and a carriage return may be
followed by a line feed. A field that starts with a quote runs to the next single quote; what follows
that up to the next comma still belongs to the field. Any text has some reading. -/

namespace Provenance.Csv

/-- Where the reader stands: between records, at the start of a field, in a bare field, inside quotes,
or behind a quote that may have been the closing one. -/
inductive Place where
  | between
  | start
  | bare
  | quoted
  | closed
  deriving DecidableEq, Repr

/-- What the reader does with a byte: drop it or keep it in the field, or end the field or the record. -/
inductive Move where
  | drop (next : Place)
  | keep (next : Place)
  | endField
  | endRecord
  deriving DecidableEq, Repr

/-- Whether a byte ends a line. -/
def isLineEnd (b : UInt8) : Bool := b == 10 || b == 13

/-- What the reader does in a bare field. -/
def bareMove (b : UInt8) : Move :=
  if b == 44 then .endField else if isLineEnd b then .endRecord else .keep .bare

/-- What the reader does at the start of a field. -/
def startMove (b : UInt8) : Move := if b == 34 then .drop .quoted else bareMove b

/-- What the reader does with a byte. -/
def move (p : Place) (b : UInt8) : Move :=
  match p with
  | .between => if isLineEnd b then .drop .between else startMove b
  | .start => startMove b
  | .bare => bareMove b
  | .quoted => if b == 34 then .drop .closed else .keep .quoted
  | .closed => if b == 34 then .keep .quoted else bareMove b

/-- A record in bytes, and where reading of it began. -/
structure Raw where
  fields : List (List UInt8)
  place : Position
  deriving DecidableEq, Repr

/-- The state of the reader: its position, where the record began, the field so far in reverse, and the
fields before it in reverse. -/
structure Cursor where
  position : Position
  began : Position
  field : List UInt8
  fields : List (List UInt8)

namespace Cursor

/-- The cursor behind one more byte. -/
def pass (c : Cursor) (b : UInt8) : Cursor :=
  let p := c.position
  { c with position := ⟨p.record, if b == 10 then p.line + 1 else p.line, p.byte + 1⟩ }

/-- The record that ends here. -/
def raw (c : Cursor) : Raw := ⟨(c.field.reverse :: c.fields).reverse, c.began⟩

/-- The cursor in front of the next record. -/
def next (c : Cursor) : Cursor :=
  let p : Position := { c.position with record := c.position.record + 1 }
  ⟨p, p, [], []⟩

end Cursor

/-- The records of a text. -/
def scan : Place → Cursor → List UInt8 → List Raw
  | .between, _, [] => []
  | _, c, [] => [c.raw]
  | p, c, b :: rest =>
    let c := c.pass b
    match move p b with
    | .drop next => scan next c rest
    | .keep next => scan next { c with field := b :: c.field } rest
    | .endField => scan .start { c with field := [], fields := c.field.reverse :: c.fields } rest
    | .endRecord => c.raw :: scan .between c.next rest

/-- The records of a text without a mark of byte order in front. -/
def rawRecords (bytes : List UInt8) : List Raw :=
  let at_ := fun n => (⟨⟨0, 1, n⟩, ⟨0, 1, 0⟩, [], []⟩ : Cursor)
  match bytes with
  | 0xEF :: 0xBB :: 0xBF :: rest => scan .between (at_ 3) rest
  | _ => scan .between (at_ 0) bytes

/-- The texts of the fields of a record, or the first field that is no text. -/
def texts (place : Position) : Nat → List (List UInt8) → Except Fault (List String)
  | _, [] => .ok []
  | i, f :: rest =>
    match Text.decode? f with
    | none => .error (.badText place i ((Text.firstFault? f).getD 0))
    | some t => (texts place (i + 1) rest).map (t :: ·)

/-- A record of a table with `width` columns. Its length is looked at before its texts. -/
def Raw.read (r : Raw) (width : Nat) : Except Fault (List String) :=
  if r.fields.length = width then texts r.place 0 r.fields
  else .error (.unequal (some r.place) r.fields.length width)

/-- The header of a text and the records below it; an empty text has an empty header. -/
def header (bytes : List UInt8) : Except Fault (List String × List Raw) :=
  match rawRecords bytes with
  | [] => .ok ([], [])
  | first :: rest => (texts first.place 0 first.fields).map (·, rest)

end Provenance.Csv
