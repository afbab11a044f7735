import Provenance.Json.Numeral
import Provenance.Text.Utf8

/-! # Reading JSON text

`Source` is the tree of a JSON text before anything is asked of its leaves: numbers are numerals, and a
text in quotes may be no text at all, when an escape names half of a surrogate pair or when its bytes
spell no character. What a reader of records skips is only checked for its form, so the leaves are
examined where they are used.

The grammar is strict: blanks are space, tab and line ends; there are no leading zeros, no trailing
commas and no raw control characters; nothing but blanks may follow the value. -/

namespace Provenance.Json

/-- The tree of a JSON text. A text is `none` when what stands between its quotes spells no text. -/
inductive Source where
  | null
  | bool (value : Bool)
  | number (value : Numeral)
  | text (value : Option String)
  | list (items : List Source)
  | object (fields : List (Option String × Source))
  deriving Inhabited

namespace Source

/-- What a JSON text is read from: its characters, and `none` where bytes spell no character. -/
abbrev Signs := List (Option Char)

/-- The blanks between tokens. -/
def isGap (c : Option Char) : Bool :=
  c = some ' ' || c = some '\n' || c = some '\t' || c = some '\x0d'

/-- Drops the blanks in front. -/
def skip (cs : Signs) : Signs := cs.dropWhile isGap

/-- The value of a digit. -/
def decimal? (c : Char) : Option Nat :=
  if '0' ≤ c ∧ c ≤ '9' then some (c.toNat - 48) else none

/-- The value of a digit of base sixteen, in either case. -/
def hex? (c : Char) : Option Nat :=
  if '0' ≤ c ∧ c ≤ '9' then some (c.toNat - 48)
  else if 'a' ≤ c ∧ c ≤ 'f' then some (c.toNat - 87)
  else if 'A' ≤ c ∧ c ≤ 'F' then some (c.toNat - 55)
  else none

/-- The code unit that four digits of base sixteen spell. -/
def unit? (a b c d : Char) : Option Nat := do
  return (((← hex? a) * 16 + (← hex? b)) * 16 + (← hex? c)) * 16 + (← hex? d)

/-- The character that a one-letter escape stands for. -/
def shortEscape? (c : Char) : Option Char :=
  match c with
  | '"' => some '"'
  | '\\' => some '\\'
  | '/' => some '/'
  | 'b' => some '\x08'
  | 'f' => some '\x0c'
  | 'n' => some '\n'
  | 'r' => some '\x0d'
  | 't' => some '\t'
  | _ => none

/-- The unit that stands for what is no character; it is beyond the last code point. -/
def noUnit : Nat := 0x110000

/-- Joins surrogate pairs; `none` if half a pair stands alone or something is no character. -/
def joinUnits : List Nat → Option (List Char)
  | [] => some []
  | high :: rest =>
    if 0xD800 ≤ high ∧ high < 0xDC00 then
      match rest with
      | low :: rest' =>
        if 0xDC00 ≤ low ∧ low < 0xE000 then
          (joinUnits rest').map (Char.ofNat (0x10000 + (high - 0xD800) * 0x400 + (low - 0xDC00)) :: ·)
        else none
      | [] => none
    else if 0xDC00 ≤ high ∧ high < 0xE000 ∨ noUnit ≤ high then none
    else (joinUnits rest).map (Char.ofNat high :: ·)

/-- The code points of a text up to its closing quote, and what follows the quote; surrogates stand
for themselves. Collected in reverse. -/
def units : List Nat → Signs → Option (List Nat × Signs)
  | acc, some '"' :: rest => some (acc.reverse, rest)
  | acc, some '\\' :: some 'u' :: some a :: some b :: some c :: some d :: rest =>
    match unit? a b c d with
    | some u => units (u :: acc) rest
    | none => none
  | acc, some '\\' :: some c :: rest =>
    match shortEscape? c with
    | some e => units (e.toNat :: acc) rest
    | none => none
  | acc, some c :: rest => if c.toNat < 32 ∨ c = '\\' then none else units (c.toNat :: acc) rest
  | acc, none :: rest => units (noUnit :: acc) rest
  | _, [] => none

/-- A text after its opening quote. -/
def textAfter (cs : Signs) : Option (Option String × Signs) :=
  (units [] cs).map fun (us, rest) => ((joinUnits us).map String.ofList, rest)

/-- The run of digits in front, and the rest. -/
def digitRun : Signs → List Nat × Signs
  | [] => ([], [])
  | c :: rest =>
    match c.bind decimal? with
    | some d => let (ds, rest') := digitRun rest; (d :: ds, rest')
    | none => ([], c :: rest)

/-- The fraction of a numeral, if a point follows. -/
def fraction (cs : Signs) : Option (Option (List Nat) × Signs) :=
  match cs with
  | some '.' :: rest =>
    match digitRun rest with
    | ([], _) => none
    | (ds, rest) => some (some ds, rest)
  | _ => some (none, cs)

/-- The exponent of a numeral, if its mark follows. -/
def exponent (cs : Signs) : Option (Option (Bool × List Nat) × Signs) :=
  match cs with
  | c :: rest =>
    if c = some 'e' ∨ c = some 'E' then
      let (down, rest) := match rest with
        | some '-' :: rest => (true, rest)
        | some '+' :: rest => (false, rest)
        | _ => (false, rest)
      match digitRun rest with
      | ([], _) => none
      | (ds, rest) => some (some (down, ds), rest)
    else some (none, cs)
  | [] => some (none, cs)

/-- A numeral. -/
def numeral (cs : Signs) : Option (Numeral × Signs) := do
  let (negative, cs) := match cs with
    | some '-' :: rest => (true, rest)
    | _ => (false, cs)
  let (whole, cs) := digitRun cs
  match whole with
  | [] => none
  | 0 :: _ :: _ => none
  | _ =>
    let (part, cs) ← fraction cs
    let (power, cs) ← exponent cs
    return (⟨negative, whole, part, power⟩, cs)

mutual

/-- A value. Each call and each entry of a list or an object takes one unit of fuel. -/
def value : Nat → Signs → Option (Source × Signs)
  | 0, _ => none
  | fuel + 1, cs =>
    match skip cs with
    | some 'n' :: some 'u' :: some 'l' :: some 'l' :: rest => some (.null, rest)
    | some 't' :: some 'r' :: some 'u' :: some 'e' :: rest => some (.bool true, rest)
    | some 'f' :: some 'a' :: some 'l' :: some 's' :: some 'e' :: rest => some (.bool false, rest)
    | some '"' :: rest => (textAfter rest).map fun (t, rest) => (.text t, rest)
    | some '[' :: rest =>
      match skip rest with
      | some ']' :: rest => some (.list [], rest)
      | rest => (items fuel rest).map fun (is, rest) => (.list is, rest)
    | some '\x7b' :: rest =>
      match skip rest with
      | some '\x7d' :: rest => some (.object [], rest)
      | rest => (entries fuel rest).map fun (fs, rest) => (.object fs, rest)
    | rest => (numeral rest).map fun (n, rest) => (.number n, rest)

/-- The items of a list up to its closing bracket; there is at least one. -/
def items : Nat → Signs → Option (List Source × Signs)
  | 0, _ => none
  | fuel + 1, cs =>
    match value fuel cs with
    | none => none
    | some (v, rest) =>
      match skip rest with
      | some ']' :: rest => some ([v], rest)
      | some ',' :: rest => (items fuel rest).map fun (vs, rest) => (v :: vs, rest)
      | _ => none

/-- The fields of an object up to its closing brace; there is at least one. -/
def entries : Nat → Signs → Option (List (Option String × Source) × Signs)
  | 0, _ => none
  | fuel + 1, cs =>
    match skip cs with
    | some '"' :: rest =>
      match textAfter rest with
      | none => none
      | some (k, rest) =>
        match skip rest with
        | some ':' :: rest =>
          match value fuel rest with
          | none => none
          | some (v, rest) =>
            match skip rest with
            | some '\x7d' :: rest => some ([(k, v)], rest)
            | some ',' :: rest => (entries fuel rest).map fun (fs, rest) => ((k, v) :: fs, rest)
            | _ => none
        | _ => none
    | _ => none

end

/-- The tree of a whole text. -/
def ofSigns? (cs : Signs) : Option Source :=
  match value (2 * cs.length + 2) cs with
  | some (v, rest) => if (skip rest).isEmpty then some v else none
  | none => none

/-- The tree of a text. -/
def ofText? (s : String) : Option Source := ofSigns? (s.toList.map some)

/-- The tree of the text that bytes spell. -/
def ofBytes? (bytes : List UInt8) : Option Source :=
  match Text.decode? bytes with
  | some s => ofText? s
  | none => ofSigns? (Text.characters bytes)

/-- The nesting that values may have. -/
def depthLimit : Nat := 127

mutual

/-- The value of a tree, if its numbers are in range, its texts are texts and it nests no deeper than
`depth`. Of two fields with one name the later stays. -/
def json? (depth : Nat) : Source → Option Json
  | .null => some .null
  | .bool b => some (.bool b)
  | .number n => n.value?
  | .text t => t.map .text
  | .list is =>
    match depth with
    | 0 => none
    | depth + 1 => (jsonItems? depth is).map .list
  | .object fs =>
    match depth with
    | 0 => none
    | depth + 1 => (jsonFields? depth fs).map Json.fields

/-- `json?` along a list. -/
def jsonItems? (depth : Nat) : List Source → Option (List Json)
  | [] => some []
  | s :: rest =>
    match json? depth s, jsonItems? depth rest with
    | some j, some js => some (j :: js)
    | _, _ => none

/-- `json?` along fields. -/
def jsonFields? (depth : Nat) : List (Option String × Source) → Option (List (String × Json))
  | [] => some []
  | (k, s) :: rest =>
    match k, json? depth s, jsonFields? depth rest with
    | some k, some j, some js => some ((k, j) :: js)
    | _, _, _ => none

end

end Source

/-- The value of a JSON text. -/
def ofText? (s : String) : Option Json := (Source.ofText? s).bind (Source.json? Source.depthLimit)

end Provenance.Json
