import Provenance.Text.Escaped

/-! # Values for inspection

A value is shown on one line as what it is made of: words, texts in quotes, lists, and named groups of
fields. -/

namespace Provenance

/-- A value that is shown. -/
inductive Form where
  | atom (text : String)
  | quoted (text : String)
  | list (items : List Form)
  | group (name : String) (items : List Form)
  | record (name : String) (fields : List (String × Form))

namespace Form

mutual

/-- Writes a value on one line. -/
def text : Form → String
  | atom s => s
  | quoted s => Text.Escaped.quote s
  | list is => "[" ++ texts is ++ "]"
  | group name is => name ++ "(" ++ texts is ++ ")"
  | record name fs => name ++ " \x7b " ++ fieldTexts fs ++ " \x7d"

/-- Writes values with commas between them. -/
def texts : List Form → String
  | [] => ""
  | [f] => f.text
  | f :: rest => f.text ++ ", " ++ texts rest

/-- Writes fields with commas between them. -/
def fieldTexts : List (String × Form) → String
  | [] => ""
  | [(k, f)] => k ++ ": " ++ f.text
  | (k, f) :: rest => k ++ ": " ++ f.text ++ ", " ++ fieldTexts rest

end

/-- A number. -/
def number (n : Nat) : Form := atom (toString n)

/-- A truth value. -/
def bool (b : Bool) : Form := atom (if b then "true" else "false")

/-- Something that may be missing. -/
def option {α : Type} (f : α → Form) : Option α → Form
  | none => atom "None"
  | some a => group "Some" [f a]

/-- Texts in a list. -/
def quotedAll (ts : List String) : Form := list (ts.map quoted)

end Form

end Provenance
