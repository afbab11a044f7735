import Provenance.Graph.Drawing
import Provenance.Json.Record

/-! # Drawings as JSON -/

namespace Provenance

open Json.Record

/-- The word for what a box stands for. -/
def Shape.word : Shape → String
  | storage => "storage"
  | step => "step"

/-- Reads what a box stands for. -/
def Shape.reader : Reader Shape := choice ([.storage, .step].map fun s => (Shape.word s, s))

/-- The JSON form of a box. -/
def Box.toJson (b : Box) : Json :=
  .object [
    ("id", .text b.id),
    ("kind", .text b.shape.word),
    ("label", .text b.label),
    ("location", .option .text b.location),
    ("resource", .option .text b.resource),
    ("order", .option .nat b.order),
    ("description", .option .text b.description)]

/-- Reads a box. -/
def Box.reader : Reader Box := fun depth s => do
  let (depth, ps) ← parts ["id", "kind", "label", "location", "resource", "order", "description"]
    false depth s
  match ps with
  | [id, shape, label, location, resource, order, description] =>
    return ⟨← required string depth id, ← required Shape.reader depth shape,
      ← required string depth label, ← nullable string depth location, ← nullable string depth resource,
      ← nullable (natBelow UInt64.size) depth order, ← nullable string depth description⟩
  | _ => none

/-- The JSON form of an arrow. -/
def Arrow.toJson (a : Arrow) : Json :=
  .object [("source", .text a.source), ("target", .text a.target), ("label", .option .text a.label)]

/-- Reads an arrow. -/
def Arrow.reader : Reader Arrow := fun depth s => do
  let (depth, ps) ← parts ["source", "target", "label"] false depth s
  match ps with
  | [source, target, label] =>
    return ⟨← required string depth source, ← required string depth target, ← nullable string depth label⟩
  | _ => none

/-- The JSON form of a tally. -/
def Tally.toJson (t : Tally) : Json :=
  .object [
    ("node_count", .nat t.nodes),
    ("step_count", .nat t.steps),
    ("edge_count", .nat t.edges),
    ("terminals", .texts t.terminals)]

/-- Reads a tally. -/
def Tally.reader : Reader Tally := fun depth s => do
  let (depth, ps) ← parts ["node_count", "step_count", "edge_count", "terminals"] false depth s
  match ps with
  | [nodes, steps, edges, terminals] =>
    return ⟨← required (natBelow UInt64.size) depth nodes, ← required (natBelow UInt64.size) depth steps,
      ← required (natBelow UInt64.size) depth edges, ← required (listOf string) depth terminals⟩
  | _ => none

/-- The JSON form of a drawing. -/
def Drawing.toJson (d : Drawing) : Json :=
  .object [
    ("nodes", .list (d.boxes.map Box.toJson)),
    ("edges", .list (d.arrows.map Arrow.toJson)),
    ("metadata", d.tally.toJson)]

/-- Reads a drawing. -/
def Drawing.reader : Reader Drawing := fun depth s => do
  let (depth, ps) ← parts ["nodes", "edges", "metadata"] false depth s
  match ps with
  | [nodes, edges, metadata] =>
    return ⟨← required (listOf Box.reader) depth nodes, ← required (listOf Arrow.reader) depth edges,
      ← required Tally.reader depth metadata⟩
  | _ => none

end Provenance
