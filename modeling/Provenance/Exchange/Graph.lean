import Provenance.Exchange.Asset
import Provenance.Graph.Basic

/-! # Handles, steps and graphs as JSON

A handle is written with the step that it comes from, a graph with the answers to the questions that
can be asked of it: the place of each step, its neighbours, the producer and the consumers of each
asset. -/

namespace Provenance

/-- What the JSON form of a step says. -/
def Step.fields (s : Step) : List (String × Json) :=
  [("id", .nat s.id), ("label", .text s.label), ("task", .text s.task.name),
    ("inputs", .list (s.inputs.map fun (p, a) => .texts [p, a.address.text])),
    ("output", .text s.output.address.text), ("resource", .text s.task.target.text),
    ("replaces", .bool s.replaces)]

/-- The JSON form of a step. -/
def Step.toJson (s : Step) : Json := .object s.fields

/-- What the JSON form of a handle says; `lineage` is the step that it comes from. -/
def Asset.fields (a : Asset) (lineage : Option Step) : List (String × Json) :=
  [("id", .text a.address.text), ("display_name", .text a.title),
    ("metadata", .option Label.toJson a.label), ("storage", .option StorageSpec.toJson a.storage),
    ("source", .bool a.isSource), ("lineage", .option Step.toJson lineage)]

/-- The JSON form of a handle. -/
def Asset.toJson (a : Asset) (lineage : Option Step) : Json := .object (a.fields lineage)

namespace Graph

/-- Numbers of steps as JSON. -/
def numbers (ids : List StepId) : Json := .list (ids.map .nat)

/-- The place and the neighbours of a step. -/
def around (g : Graph) (id : StepId) : List (String × Json) :=
  [("position", .option .nat (g.position? id)), ("upstream", numbers (g.upstream id)),
    ("downstream", numbers (g.downstream id))]

/-- The producer and the consumers of an asset. -/
def uses (g : Graph) (a : Address) : List (String × Json) :=
  [("producer", .option (fun s => .nat s.id) (g.producer? a)),
    ("consumers", numbers ((g.consumers a).map (·.id)))]

/-- The JSON form of a graph. -/
def toJson (g : Graph) : Json :=
  .object [
    ("len", .nat g.steps.length), ("empty", .bool g.steps.isEmpty),
    ("terminals", .texts (g.terminals.map Address.text)),
    ("steps", .list (g.steps.map fun s => .object (s.fields ++ g.around s.id))),
    ("nodes", .list (g.assets.map fun a => .object (a.fields none ++ g.uses a.address))),
    ("sources", .texts (g.sources.map (·.address.text))),
    ("sinks", .texts (g.sinks.map (·.address.text))),
    ("edges", .list (g.edges.map fun (a, b) => numbers [a, b])),
    ("dag", numbers [g.vertexCount, g.links.length])]

/-- The JSON form of a graph that names its steps and assets only. -/
def outline (g : Graph) : Json :=
  .object [("order", .texts (g.steps.map (·.task.name))),
    ("nodes", .texts (g.assets.map (·.address.text)))]

end Graph

end Provenance
