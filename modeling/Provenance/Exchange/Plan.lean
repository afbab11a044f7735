import Provenance.Infra.Plan
import Provenance.Json.Printer
import Provenance.Json.Record

/-! # Plans as JSON -/

namespace Provenance

open Json.Record

/-- The JSON form of a resource. -/
def Resource.toJson (r : Resource) : Json :=
  .object [
    ("kind", .text r.kind),
    ("name", .text r.name),
    ("properties", .object r.properties.entries),
    ("depends_on", .texts r.dependsOn.toList),
    ("origin", .text r.origin)]

/-- Reads a resource. -/
def Resource.reader : Reader Resource := fun depth s => do
  let (depth, ps) ← parts ["kind", "name", "properties", "depends_on", "origin"] false depth s
  match ps with
  | [kind, name, properties, dependsOn, origin] =>
    return ⟨← required string depth kind, ← required string depth name,
      ← required (indexOf any) depth properties,
      KeySet.ofList (← required (listOf string) depth dependsOn), ← required string depth origin⟩
  | _ => none

/-- The JSON form of a plan. -/
def Plan.toJson (p : Plan) : Json :=
  .object [
    ("backend", .text p.provider),
    ("resources", .object (p.resources.entries.map fun e => (e.1, e.2.toJson)))]

/-- Reads a plan. -/
def Plan.reader : Reader Plan := fun depth s => do
  let (depth, ps) ← parts ["backend", "resources"] false depth s
  match ps with
  | [provider, resources] =>
    return ⟨← required string depth provider, ← required (indexOf Resource.reader) depth resources⟩
  | _ => none

/-- The text of a plan, one entry a line. -/
def Plan.text (p : Plan) : String := p.toJson.pretty

end Provenance
