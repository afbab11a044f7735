import Provenance.Store.Connection.Leftover

/-! # Connections to databases

The table of a database can stand in a file of a disk. A connection holds the file open, so it stays with
the file when the file is moved or written anew; the names beside it are made from the place where it was
opened. Opening and closing leave traces on the disk, also when they fail.

A path to a database is taken by its spelling: two dots take the name in front of them back, whether or
not it leads anywhere. What stands on the way counts all the same. -/

namespace Provenance

/-- What a connection remembers of the table in its file. -/
inductive Recollection where
  | nothing
  | noTable
  | rows (image : Disk.Image)
  deriving DecidableEq, Repr

/-- An open database: where it was opened, the number of its file, how often the file or the log in use had
been changed when the connection last looked, what it remembers from then, and whether it uses a log. -/
structure Connection where
  place : Disk.Place
  number : Nat
  changes : Nat
  memory : Recollection
  logged : Bool

namespace Connection

/-- Follows the spelling of a path from a place of at most 511 bytes. What stands on the way has to be a
directory, and a name that is looked for in a directory must not be too long. -/
def spelled? (d : Disk) (p : Disk.Place) : List Disk.Path.Component → Option Disk.Place
  | [] => some p
  | .root :: rest => spelled? d .top rest
  | .here :: rest => spelled? d p rest
  | .up :: rest => spelled? d p.outside rest
  | .name n :: rest =>
    let next := p.inside n
    if next.text.utf8ByteSize > 511 then none
    else match d.find? p with
      | some .directory => if Disk.tooLong n then none else spelled? d next rest
      | some _ => none
      | none => spelled? d next rest

/-- The place that a path to a database names: at most 504 bytes, and no directory, but in a directory
that is there. -/
def place? (path : String) (d : Disk) : Option Disk.Place :=
  if path.toList.contains '\x00' then none
  else
    (spelled? d .top (Disk.Path.components path)).filter fun p =>
      p.text.utf8ByteSize ≤ 504 && d.isDirectory p.outside && !d.isDirectory p

/-- Turns to the file of a connection: what an operation finds there, and the connection and the disk
after everything left over has been seen to. What is remembered is not trusted after an interrupted change. -/
def enter (c : Connection) (d : Disk) : Except DatabaseFault Content × Connection × Disk :=
  let content := d.held c.number
  if c.logged then (.ok content, c, d)
  else match clearJournal c.place c.number (isBlank content) d with
    | (.error fault, d) => (.error fault, c, d)
    | (.ok interrupted, d) =>
      let c := if interrupted then { c with memory := .nothing } else c
      match findLog c.place (isBlank content) d with
      | (.error fault, d) => (.error fault, c, d)
      | (.ok false, d) => (.ok content, c, d)
      | (.ok true, d) =>
        let used := usedLog c.number d
        (.ok content, { c with changes := used.changes, memory := .nothing, logged := true },
          { d with logs := assign c.number { used with users := used.users + 1 } d.logs })

/-- Whether the file of a connection still stands where it was opened. -/
def isInPlace (c : Connection) (d : Disk) : Bool := d.number? c.place = some c.number

/-- The disk after a connection was closed. The last one that used the log brings its rows into the file
and clears it away, unless the file has been moved or the log was spoilt. -/
def close (c : Connection) (d : Disk) : Disk :=
  let used := usedLog c.number d
  if !c.logged then d
  else if used.users > 1 then
    { d with logs := assign c.number { used with users := used.users - 1 } d.logs }
  else
    let d := { d with logs := unassign c.number d.logs }
    if !c.isInPlace d || !isIntact c.place used d || d.isDirectory (shared c.place) then d
    else
      let d := (d.detach (log c.place)).detach (shared c.place)
      match d.held c.number, used.rows with
      | .image i, some rows => d.writeHeld c.number (.image { i with rows })
      | _, _ => d

/-- Opens the database at a path. A file that is not there is made, and a blank one becomes a database
with an empty table, for which its journal needs a name too. What is no database is not opened; traces
of the attempt stay. -/
def open? (path : String) (d : Disk) : Option Connection × Disk :=
  match place? path d with
  | none => (none, d)
  | some p =>
    let d := if (d.find? p).isSome then d else d.put p (.file (.bytes []) none)
    let (number, d) := d.hold p
    match enter ⟨p, number, 0, .nothing, false⟩ d with
    | (.error _, c, d) => (none, c.close d)
    | (.ok (.image i), c, d) => (some (if c.logged then c else { c with changes := i.changes }), d)
    | (.ok content, c, d) =>
      if !isBlank content || Disk.tooLong (journal p).name || d.isDirectory (journal p) then
        (none, c.close d)
      else if isLocked number d then (none, d.detach (journal p))
      else
        let image : Disk.Image := ⟨[], 1⟩
        (some { c with changes := 1, memory := .rows image },
          (d.detach (journal p)).writeHeld number (.image image))

end Connection

end Provenance
