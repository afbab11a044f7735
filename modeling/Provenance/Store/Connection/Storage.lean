import Provenance.Store.Connection.Basic
import Provenance.Store.Database

/-! # Storage in a database file

Every operation first turns to the file and sees to what is left beside it. Then it goes by the rows that
the connection remembers, unless something tells it that they were changed: the count of changes in the
file, or the log in use. So a file that was made anew and changed as often as before is taken for the
old one. -/

namespace Provenance.Connection

/-- What a connection takes a file to hold, and the connection after that. It goes by what it remembers as
long as the file was changed as often as before. -/
def recollect (c : Connection) : Content → Except DatabaseFault Disk.Image × Connection
  | .image i =>
    if c.changes ≠ i.changes then (.ok i, { c with changes := i.changes, memory := .nothing })
    else match c.memory with
      | .nothing => (.ok i, c)
      | .noTable => (.error .noTable, c)
      | .rows m => (.ok m, c)
  | content =>
    if isBlank content then (.error .noTable, { c with memory := .noTable })
    else (.error .notDatabase, { c with changes := 0, memory := .nothing })

/-- The same for a connection that uses a log. The log tells whether anything was changed, and what stands
in it counts for more than what stands in the file. -/
def recollectLogged (c : Connection) (used : Log) (intact : Bool) (content : Content) :
    Except DatabaseFault Disk.Image × Connection :=
  let fresh := { c with changes := used.changes, memory := .nothing }
  match content, used.rows, if c.changes = used.changes then c.memory else .nothing with
  | .image _, _, .rows m | _, some _, .rows m => (.ok m, c)
  | .image i, rows, _ =>
    (if intact then .ok { i with rows := rows.getD i.rows } else .error .notRead, fresh)
  | content, _, _ => (.error (if isBlank content then .noTable else .notDatabase), fresh)

/-- The image of the database that an operation finds. -/
def view (c : Connection) (d : Disk) : Except DatabaseFault Disk.Image × Connection × Disk :=
  match c.enter d with
  | (.ok content, c, d) =>
    let used := usedLog c.number d
    let (found, c) :=
      if c.logged then c.recollectLogged used (isIntact c.place used d) content else c.recollect content
    (found, c, d)
  | (.error fault, c, d) => (.error fault, c, d)

/-- Whether a connection can change its file, and the disk as the change leaves it but for the file. -/
def prepare (c : Connection) (d : Disk) : Except DatabaseFault Unit × Disk :=
  if c.logged then (if d.isDirectory (shared c.place) then .error .readOnly else .ok (), d)
  else if !c.isInPlace d then (.error .readOnly, d)
  else (if isLocked c.number d then .error .locked else .ok (), d.detach (journal c.place))

/-- The disk after a change to a file without the table. A connection that did not know has begun with
the journal. -/
def abandon (c : Connection) (d : Disk) : Disk :=
  if c.logged || c.memory = .noTable || d.isDirectory (journal c.place) then d
  else d.detach (journal c.place)

/-- Puts changed rows where the next operation finds them: into the log in use, or into the file. -/
def keep (c : Connection) (i : Disk.Image) (rows : Database.Rows) (d : Disk) : Connection × Disk :=
  if c.logged then
    let used := usedLog c.number d
    let used := { used with changes := used.changes + 1, rows := some rows }
    let d := { d with logs := assign c.number used d.logs }
    ({ c with changes := used.changes, memory := .rows { i with rows } },
      d.put (log c.place)
        (.file (.bytes (Disk.Image.logBytes used.changes)) (d.number? (log c.place))))
  else
    let image : Disk.Image := ⟨rows, i.changes + 1⟩
    ({ c with changes := image.changes, memory := .rows image }, d.writeHeld c.number (.image image))

/-- Reads the data of an asset. A row that was read is remembered with the others. -/
def read (a : Asset) (c : Connection) (d : Disk) : Except Fault Dataset × Connection × Disk :=
  match c.view d with
  | (.error fault, c, d) => (.error (Store.fault a (.database fault)), c, d)
  | (.ok i, c, d) =>
    (Database.read a i.rows, if Database.holds a i.rows then { c with memory := .rows i } else c, d)

/-- Writes the data of an asset. -/
def write (a : Asset) (data : Dataset) (c : Connection) (d : Disk) :
    Except Fault Unit × Connection × Disk :=
  match c.view d with
  | (.error .noTable, found, d) =>
    (.error (Store.fault a (.database .noTable)), found, c.abandon d)
  | (.error fault, c, d) => (.error (Store.fault a (.database fault)), c, d)
  | (.ok i, c, d) =>
    match c.prepare d with
    | (.error fault, d) => (.error (Store.fault a (.database fault)), c, d)
    | (.ok _, d) => (.ok (), c.keep i (Database.write a data i.rows) d)

/-- Whether there is a row for an asset. -/
def holds (a : Asset) (c : Connection) (d : Disk) : Except Fault Bool × Connection × Disk :=
  match c.view d with
  | (.error fault, c, d) => (.error (Store.fault a (.database fault)), c, d)
  | (.ok i, c, d) => (.ok (Database.holds a i.rows), c, d)

/-- An open database on a disk as a storage. -/
def store : Store (Connection × Disk) where
  kind := Database.store.kind
  read a s := read a s.1 s.2
  write a data s := write a data s.1 s.2
  holds a s := holds a s.1 s.2

end Provenance.Connection
