import Provenance.Text.Blank

/-! # Paths

A path is a text whose names are separated by slashes. `components` is what a path means; joining,
taking the last name off and changing it work on the text and keep the rest of it as it is written. -/

namespace Provenance.Disk.Path

/-- What stands between slashes. -/
inductive Component where
  | root
  | here
  | up
  | name (text : String)
  deriving DecidableEq, Repr

/-- The components of the pieces of a relative path: empty pieces and dots mean nothing. -/
def named (pieces : List String) : List Component :=
  (pieces.filter fun p => p ≠ "" ∧ p ≠ ".").map fun p => if p = ".." then .up else .name p

/-- What a path means. A dot counts only where it stands first. -/
def components (path : String) : List Component :=
  match Text.splitAll '/' path with
  | "" :: rest@(_ :: _) => .root :: named rest
  | "." :: rest => .here :: named rest
  | pieces => named pieces

/-- Writes a path behind another; an absolute one stands alone. -/
def join (base path : String) : String :=
  if path.startsWith "/" then path
  else if base.isEmpty ∨ base.endsWith "/" then base ++ path
  else base ++ "/" ++ path

/-- The last component, if it is a name. -/
def fileName? (path : String) : Option String :=
  match (components path).getLast? with
  | some (.name n) => some n
  | _ => none

/-- Drops the slashes and the meaningless dots at the end of a path, written in reverse; the first
character stays. -/
def trimEnd : List Char → List Char
  | '/' :: rest => if rest.isEmpty then ['/'] else trimEnd rest
  | '.' :: '/' :: rest => trimEnd ('/' :: rest)
  | cs => cs

/-- The path without its last name, as far as it is written. -/
def parent (path : String) : String :=
  let back := trimEnd path.toList.reverse
  String.ofList (trimEnd (back.dropWhile (· ≠ '/'))).reverse

/-- The text after the last dot of the last name, unless the dot stands first. -/
def extension? (path : String) : Option String :=
  match fileName? path with
  | none => none
  | some n =>
    match n.toList.reverse.dropWhile (· ≠ '.') with
    | _ :: _ :: _ => some (String.ofList (n.toList.reverse.takeWhile (· ≠ '.')).reverse)
    | _ => none

/-- The path with another last name; without a last name, the name goes to the end. -/
def withFileName (path name : String) : String :=
  match fileName? path with
  | some _ => join (parent path) name
  | none => join path name

end Provenance.Disk.Path
