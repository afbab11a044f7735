import Provenance.Disk.Basic
import Provenance.Fault

/-! # What stands beside a database

A change is kept safe by a journal beside the file, and the journal goes when the change is complete. A
journal that is found is what an interrupted change has left: it is cleared away before the file is used,
unless its first byte says that it is spent. Where there is a log beside the file, changes are made by way
of the log, and those who use it know of each other. -/

namespace Provenance.Connection

/-- The journal of a database. -/
def journal (p : Disk.Place) : Disk.Place := p.beside "-journal"

/-- The log of a database. -/
def log (p : Disk.Place) : Disk.Place := p.beside "-wal"

/-- The file in which those who use a log share what they know of it. -/
def shared (p : Disk.Place) : Disk.Place := p.beside "-shm"

/-- What is left beside a database. An empty file is as good as none. -/
inductive Leftover where
  | nothing
  | directory
  | file (first : UInt8)
  deriving DecidableEq, Repr

/-- What is left at a place. -/
def leftover (d : Disk) (p : Disk.Place) : Leftover :=
  match d.find? p with
  | none => .nothing
  | some .directory => .directory
  | some (.file content _) =>
    match content.toBytes with
    | [] => .nothing
    | b :: _ => .file b

/-- Whether a file has nothing in it that a database could be read from. A single byte counts as none. -/
def isBlank : Content → Bool
  | .bytes bs => bs.length ≤ 1
  | .image _ => false

/-- What the users of the log of a file have in common. -/
def usedLog (number : Nat) (d : Disk) : Log := (d.logs.lookup number).getD ⟨0, 0, none⟩

/-- Whether a log in use still holds what its users have put there. -/
def isIntact (p : Disk.Place) (used : Log) (d : Disk) : Bool :=
  used.rows.isNone ||
    match d.find? (log p) with
    | some (.file content _) => content = .bytes (Disk.Image.logBytes used.changes)
    | _ => false

/-- Whether someone uses the log of a file. Nobody else can change the file then. -/
def isLocked (number : Nat) (d : Disk) : Bool := (usedLog number d).users > 0

/-- Clears a left-over journal away, and answers whether one of an interrupted change was there. One with a
first byte that is zero is spent, and stays unless the database is blank. Companions of a file take after
what stands at its place, so there has to be something. -/
def clearJournal (p : Disk.Place) (number : Nat) (blank : Bool) (d : Disk) :
    Except DatabaseFault Bool × Disk :=
  match leftover d (journal p) with
  | .nothing => (.ok false, d)
  | .directory => (if blank then .ok false else .error .notRead, d)
  | .file first =>
    if blank then (.ok false, d.detach (journal p))
    else if (d.find? p).isNone then (.error .notRead, d)
    else if first = 0 then (.ok false, d)
    else if isLocked number d then (.error .locked, d)
    else (.ok true, d.detach (journal p))

/-- Finds out whether there is a log to be used. The log of a blank database is cleared away. -/
def findLog (p : Disk.Place) (blank : Bool) (d : Disk) : Except DatabaseFault Bool × Disk :=
  match leftover d (log p) with
  | .nothing => (.ok false, d)
  | .directory => (.error .notOpened, d)
  | .file _ =>
    if blank then (.ok false, d.detach (log p))
    else if (d.find? p).isNone then (.error .notRead, d)
    else if d.isDirectory (shared p) then (.ok true, d)
    else (.ok true, d.put (shared p) (.file (.bytes Disk.Image.sharedBytes) (d.number? (shared p))))

end Provenance.Connection
