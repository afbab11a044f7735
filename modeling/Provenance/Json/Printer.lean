import Provenance.Json.Basic
import Provenance.Decimal.Layout
import Provenance.Text.Whole

/-! # Writing JSON

`Json.compact` writes a value without blanks, `Json.pretty` with one entry a line and two spaces for
each level. A number that is not finite has no JSON form and is written as null. -/

namespace Provenance.Json

/-- A character inside a quoted text. Control characters, the quote and the backslash are escaped,
and nothing else is. -/
def escape (c : Char) : List Char :=
  if c = '"' then ['\\', '"']
  else if c = '\\' then ['\\', '\\']
  else if c = '\x08' then ['\\', 'b']
  else if c = '\x0c' then ['\\', 'f']
  else if c = '\n' then ['\\', 'n']
  else if c = '\x0d' then ['\\', 'r']
  else if c = '\t' then ['\\', 't']
  else if c.toNat < 32 then
    ['\\', 'u', '0', '0', Text.hexDigit (c.toNat / 16), Text.hexDigit (c.toNat % 16)]
  else [c]

/-- A text in quotes. -/
def quote (s : String) : String :=
  "\"" ++ String.ofList (s.toList.flatMap escape) ++ "\""

/-- A floating point number. -/
def writeFloat (x : Float) : String :=
  (Decimal.dataLayout.float? x).getD "null"

mutual

/-- Writes a value without blanks. -/
def compact : Json → String
  | .null => "null"
  | .bool b => if b then "true" else "false"
  | .int n => toString n
  | .float x => writeFloat x
  | .text s => quote s
  | .list items => "[" ++ compactItems items ++ "]"
  | .object fs => "\x7b" ++ compactFields fs ++ "\x7d"

/-- The items of a list with commas between them. -/
def compactItems : List Json → String
  | [] => ""
  | [j] => compact j
  | j :: rest => compact j ++ "," ++ compactItems rest

/-- The fields of an object with commas between them. -/
def compactFields : List (String × Json) → String
  | [] => ""
  | [(k, j)] => quote k ++ ":" ++ compact j
  | (k, j) :: rest => quote k ++ ":" ++ compact j ++ "," ++ compactFields rest

end

/-- A new line, indented by `depth` levels. -/
def newLine (depth : Nat) : String :=
  "\n" ++ String.ofList (List.replicate (2 * depth) ' ')

mutual

/-- Writes a value that stands `depth` levels deep. -/
def prettyAt (depth : Nat) : Json → String
  | .null => "null"
  | .bool b => if b then "true" else "false"
  | .int n => toString n
  | .float x => writeFloat x
  | .text s => quote s
  | .list [] => "[]"
  | .list items => "[" ++ prettyItems (depth + 1) items ++ newLine depth ++ "]"
  | .object [] => "\x7b\x7d"
  | .object fs => "\x7b" ++ prettyFields (depth + 1) fs ++ newLine depth ++ "\x7d"

/-- The items of a list, one a line. -/
def prettyItems (depth : Nat) : List Json → String
  | [] => ""
  | [j] => newLine depth ++ prettyAt depth j
  | j :: rest => newLine depth ++ prettyAt depth j ++ "," ++ prettyItems depth rest

/-- The fields of an object, one a line. -/
def prettyFields (depth : Nat) : List (String × Json) → String
  | [] => ""
  | [(k, j)] => newLine depth ++ quote k ++ ": " ++ prettyAt depth j
  | (k, j) :: rest =>
    newLine depth ++ quote k ++ ": " ++ prettyAt depth j ++ "," ++ prettyFields depth rest

end

/-- Writes a value over several lines. -/
def pretty (j : Json) : String := prettyAt 0 j

end Provenance.Json
