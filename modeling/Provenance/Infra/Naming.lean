import Provenance.Hash.Blake3
import Provenance.Step

/-! # Names of resources

A name has a readable part and a digest of what it stands for, so that compiling again gives the same
names and different things get different ones. Names keep to small letters, digits and a separator. -/

namespace Provenance.Naming

/-- The number of digits of a digest. -/
def digestLength : Nat := 8

/-- The digits that a text is told apart by. -/
def digest (s : String) : String :=
  String.ofList ((Hash.Blake3.hex (Text.encode s)).toList.take digestLength)

/-- Adds a character to a name that is written in reverse: letters and digits are kept in small, a run
of others becomes one separator, and no separator stands first. -/
def addChar (sep : Char) (back : List Char) (c : Char) : List Char :=
  if c.isAlphanum then c.toLower :: back
  else match back with
    | [] => []
    | last :: _ => if last = sep then back else sep :: back

/-- The longest part from the left that fits into a number of bytes. -/
def cut : Nat → List Char → List Char
  | _, [] => []
  | room, c :: rest => if c.utf8Size ≤ room then c :: cut (room - c.utf8Size) rest else []

/-- The name that is used when nothing is left of a text. -/
def fallback : String := "node"

/-- The readable part of a name, at most `room` bytes long and without a separator at its end. -/
def sanitize (s : String) (room : Nat) (sep : Char) : String :=
  let kept := (cut room (s.toList.foldl (addChar sep) []).reverse).reverse.dropWhile (· = sep)
  if kept.isEmpty then fallback else String.ofList kept.reverse

/-- The room for the readable part in a name of some length. -/
def budget (room : Nat) : Nat := max (room - (digestLength + 1)) 1

/-- The name of the storage of an asset: its name, and the digest of its location. -/
def storage (a : Address) (room : Nat) (sep : Char) : String :=
  sanitize a.name (budget room) sep ++ sep.toString ++ digest a.location

/-- The text that tells an address apart. -/
def identity (a : Address) : String := a.name ++ "|" ++ a.location

/-- The name of a step: its task and output, and the digest of the output. An asset has one producer,
so the output tells the step apart. -/
def step (s : Step) (room : Nat) (sep : Char) : String :=
  let out := s.output.address
  sanitize (s.task.name ++ "-" ++ out.name) (budget room) sep ++ sep.toString ++ digest (identity out)

end Provenance.Naming
