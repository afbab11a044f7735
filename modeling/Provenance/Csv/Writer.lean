import Provenance.Fault

/-! # Writing comma-separated text

A record is a line of fields with commas between them. A field is quoted when it holds a comma, a quote
or a line break, and a quote inside it is written twice. A line of no characters could not be told from
no line, so a record without any characters is written as two quotes.

All records have the length of the first. A longer or shorter one stops the writing, and what was
written of it stays, without its end. -/

namespace Provenance.Csv

/-- The characters that a bare field cannot hold. -/
def special (c : Char) : Bool := c == ',' || c == '"' || c == '\n' || c == '\x0d'

/-- Whether a field has to be quoted. -/
def needsQuotes (field : String) : Bool := field.toList.any special

/-- The characters of a quoted field. -/
def doubled : List Char → List Char
  | [] => []
  | c :: rest => if c = '"' then '"' :: '"' :: doubled rest else c :: doubled rest

/-- A field as it is written, up to its closing quote. -/
def opened (field : String) : List Char :=
  if needsQuotes field then '"' :: doubled field.toList else field.toList

/-- The closing quote of a field, if it has one. -/
def closing (field : String) : List Char := if needsQuotes field then ['"'] else []

/-- The fields of a record up to the closing quote of the last one. -/
def openedRecord : List String → List Char
  | [] => []
  | [f] => opened f
  | f :: rest => opened f ++ closing f ++ ',' :: openedRecord rest

/-- A record on its line. -/
def record (fields : List String) : List Char :=
  let line := openedRecord fields ++ ((fields.getLast?).map closing).getD []
  (if line.isEmpty then ['"', '"'] else line) ++ ['\n']

/-- Writes records that should have `width` fields; answers what is written, and the fault that stopped
the writing. -/
def records (width : Nat) : List (List String) → List Char × Option Fault
  | [] => ([], none)
  | r :: rest =>
    if r.length = width then
      let (text, fault) := records width rest
      (record r ++ text, fault)
    else (openedRecord r, some (.unequal none r.length width))

/-- Writes a header and the records below it. -/
def write (header : List String) (rows : List (List String)) : String × Option Fault :=
  let (text, fault) := records header.length rows
  (String.ofList (record header ++ text), fault)

end Provenance.Csv
