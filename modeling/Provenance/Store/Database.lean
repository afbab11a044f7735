import Provenance.Assoc
import Provenance.Exchange.Dataset
import Provenance.Json.Printer
import Provenance.Store.Basic

/-! # Storage in a database

One row for each name and location holds the data as JSON text. Reading takes the text apart again. -/

namespace Provenance.Database

/-- The rows of the table. -/
abbrev Rows := List ((String × String) × String)

/-- The key of an asset. -/
def key (a : Asset) : String × String := (a.address.name, a.address.location)

/-- The data of an asset in the table. -/
def read (a : Asset) (rows : Rows) : Except Fault Dataset :=
  match rows.lookup (key a) with
  | none => .error (Store.fault a .absent)
  | some payload =>
    match Dataset.ofText? payload with
    | some d => .ok d
    | none => .error (Store.fault a .unreadable)

/-- The table with the data of an asset. -/
def write (a : Asset) (d : Dataset) (rows : Rows) : Rows := assign (key a) d.text rows

/-- Whether the table has a row for an asset. -/
def holds (a : Asset) (rows : Rows) : Bool := (rows.lookup (key a)).isSome

/-- The table as a storage. -/
def store : Store Rows where
  kind := "sqlite"
  read a rows := (read a rows, rows)
  write a d rows := (.ok (), write a d rows)
  holds a rows := (.ok (holds a rows), rows)

end Provenance.Database
