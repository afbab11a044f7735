import Provenance.Dataset
import Provenance.Json.Printer
import Provenance.Json.Record

/-! # Datasets as JSON -/

namespace Provenance.Dataset

open Json.Record

/-- Reads columns and rows. -/
def reader : Reader Dataset := fun depth s => do
  let (depth, ps) ← parts ["columns", "rows"] false depth s
  match ps with
  | [columns, rows] =>
    return ⟨← required (listOf string) depth columns, ← required (listOf (listOf any)) depth rows⟩
  | _ => none

/-- The dataset that a JSON text holds. -/
def ofText? (s : String) : Option Dataset := read? reader s

/-- The dataset that the bytes of a JSON text hold. -/
def ofBytes? (bytes : List UInt8) : Option Dataset := readBytes? reader bytes

/-- The JSON text of a dataset. -/
def text (d : Dataset) : String := d.toJson.compact

end Provenance.Dataset
