import Provenance.Asset
import Provenance.Json.Record

/-! # Addresses, labels and storage declarations as JSON -/

namespace Provenance

open Json.Record

/-- The JSON form of an address. -/
def Address.toJson (a : Address) : Json :=
  .object [("name", .text a.name), ("location", .text a.location)]

/-- Reads an address. -/
def Address.reader : Reader Address := fun depth s => do
  let (depth, ps) ← parts ["name", "location"] false depth s
  match ps with
  | [name, location] => return ⟨← required string depth name, ← required string depth location⟩
  | _ => none

/-- The JSON form of a label. -/
def Label.toJson (l : Label) : Json :=
  .object [("display_name", .text l.title), ("description", .option .text l.description)]

/-- Reads a label. -/
def Label.reader : Reader Label := fun depth s => do
  let (depth, ps) ← parts ["display_name", "description"] false depth s
  match ps with
  | [title, description] => return ⟨← required string depth title, ← nullable string depth description⟩
  | _ => none

/-- Reads a kind of place that holds data. -/
def Medium.reader : Reader Medium :=
  choice ([.objectStore, .table, .volume].map fun m => (Medium.word m, m))

/-- Reads a format of files. -/
def Format.reader : Reader Format :=
  choice ([.csv, .json].map fun f => (Format.extension f, f))

/-- The JSON form of a storage declaration. -/
def StorageSpec.toJson (s : StorageSpec) : Json :=
  .object [
    ("class", .text s.medium.word),
    ("format", .text s.format.extension),
    ("versioned", .bool s.versioned),
    ("retention_days", .option (fun d => .nat d.toNat) s.retentionDays)]

/-- Reads a storage declaration. -/
def StorageSpec.reader : Reader StorageSpec := fun depth s => do
  let (depth, ps) ← parts ["class", "format", "versioned", "retention_days"] false depth s
  match ps with
  | [medium, format, versioned, days] =>
    return ⟨← required Medium.reader depth medium, ← required Format.reader depth format,
      ← required bool depth versioned, (← nullable (natBelow UInt32.size) depth days).map UInt32.ofNat⟩
  | _ => none

end Provenance
