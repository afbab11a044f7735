import Provenance.Text.Blank
import Provenance.Text.Whole

/-! # Cron lines for EventBridge

EventBridge writes a schedule in six fields: minute, hour, day of month, month, weekday and year. Of the
two day fields exactly one is a question mark, so a cron line that restricts both cannot be expressed.

The weekday field of a cron line is a list of parts. A part is every day, one day or a span of days, and
may keep only every n-th day from its first one. Cron numbers the days from Sunday as 0 and knows Sunday
as 7 as well; other schedulers number them from Sunday as 1. A span may run past Saturday, and in the
other numbering it is then written as two. -/

namespace Provenance.Cron

/-- Some days of the week. -/
inductive Days where
  | every
  | one (day : Nat)
  | span (first last : Nat)
  deriving DecidableEq, Repr

/-- Some days of the week, or every n-th of them. -/
structure Part where
  days : Days
  step : Option Nat
  deriving DecidableEq, Repr

/-- The short names of the days, from Sunday. -/
def dayNames : List String := ["sun", "mon", "tue", "wed", "thu", "fri", "sat"]

/-- Reads a day: a number from 0 to 7, or a short name in any case. -/
def day? (token : String) : Option Nat :=
  match Text.natBelow? 256 token with
  | some n => if n ≤ 7 then some n else none
  | none => dayNames.findIdx? (· == Text.lowerAscii token)

/-- Reads one day or several. -/
def days? (text : String) : Option Days :=
  if text = "*" then some .every
  else match Text.splitFirst '-' text with
    | some (first, last) => do return .span (← day? first) (← day? last)
    | none => (day? text).map .one

/-- Reads a part; a step is between 1 and 7. -/
def Part.ofText? (text : String) : Option Part :=
  match Text.splitFirst '/' text with
  | some (range, step) => do
    let n ← (Text.natBelow? 256 step).filter fun n => 1 ≤ n ∧ n ≤ 7
    return ⟨← days? range, some n⟩
  | none => (days? text).map (⟨·, none⟩)

/-- The number of a day in the week that starts with Sunday as 1. -/
def fromOne (day : Nat) : Nat := day % 7 + 1

/-- Days from one day to another, written as one day where the end of the week allows only one. -/
def upTo (first last : Nat) (single : Bool) : Part :=
  ⟨if single then .one first else .span first last, none⟩

/-- The same days in the week that starts with Sunday as 1. A span with a step cannot run past
Saturday. -/
def Part.shift (p : Part) : Option (List Part) :=
  match p.days with
  | .every =>
    match p.step with
    | some n => some [⟨.one 1, some n⟩]
    | none => some [⟨.every, none⟩]
  | .one d => some [⟨.one (fromOne d), p.step⟩]
  | .span a b =>
    let first := fromOne a
    let last := fromOne b
    if first ≤ last then some [⟨.span first last, p.step⟩]
    else match p.step with
      | some _ => none
      | none => some [upTo first 7 (first == 7), upTo 1 last (last == 1)]

/-- The text of days. -/
def Days.text : Days → String
  | every => "*"
  | one d => toString d
  | span a b => toString a ++ "-" ++ toString b

/-- The text of a part. -/
def Part.text (p : Part) : String :=
  match p.step with
  | some n => p.days.text ++ "/" ++ toString n
  | none => p.days.text

/-- Reads the parts of a weekday field. -/
def parts? (field : String) : Option (List Part) := (Text.splitAll ',' field).mapM Part.ofText?

/-- The parts of a weekday field in the week that starts with Sunday as 1. -/
def shiftAll (parts : List Part) : Option (List Part) := (parts.mapM Part.shift).map List.flatten

/-- The text of a weekday field. -/
def fieldText (parts : List Part) : String := ",".intercalate (parts.map Part.text)

/-- The schedule expression for a cron line of five fields. -/
def eventBridge? (line : String) : Option String :=
  match Text.words line with
  | [minute, hour, dayOfMonth, month, weekday] => do
    let (dayOfMonth, weekday) ←
      if weekday = "*" then some (dayOfMonth, "?")
      else if dayOfMonth = "*" then ((parts? weekday).bind shiftAll).map fun ps => ("?", fieldText ps)
      else none
    return "cron(" ++ " ".intercalate [minute, hour, dayOfMonth, month, weekday, "*"] ++ ")"
  | _ => none

end Provenance.Cron
