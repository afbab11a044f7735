import Provenance.Graph.Basic
import Provenance.Text.Blank

/-! # Drawings of graphs

A drawing names every asset and every step by a short key and lists the arrows between them. It depends
on the order of execution alone. `mermaid` and `dot` write it as a flowchart of either language; a
double quote in a label becomes a single one. -/

namespace Provenance

/-- What a drawn box stands for. -/
inductive Shape where
  | storage
  | step
  deriving DecidableEq, Repr

/-- A drawn box. -/
structure Box where
  id : String
  shape : Shape
  label : String
  location : Option String
  resource : Option String
  order : Option Nat
  description : Option String
  deriving DecidableEq, Repr

/-- A drawn arrow; the label is the parameter that an input is given to. -/
structure Arrow where
  source : String
  target : String
  label : Option String
  deriving DecidableEq, Repr

/-- What a drawing holds, in numbers. -/
structure Tally where
  nodes : Nat
  steps : Nat
  edges : Nat
  terminals : List String
  deriving DecidableEq, Repr

/-- A drawn graph. -/
structure Drawing where
  boxes : List Box
  arrows : List Arrow
  tally : Tally
  deriving DecidableEq, Repr

namespace Drawing

/-- The key of an asset by its place in the list of assets. -/
def assetKey (index : Nat) : String := "n" ++ toString index

/-- The key of a step by its place in the order of execution. -/
def stepKey (position : Nat) : String := "s" ++ toString position

/-- The key of the asset at an address, if the graph has it. -/
def keyOf? (g : Graph) (a : Address) : Option String :=
  (g.assets.findIdx? (·.address == a)).map assetKey

/-- The box of an asset. -/
def assetBox (a : Asset) (index : Nat) : Box :=
  ⟨assetKey index, .storage, a.title, some a.address.location, none, none,
    a.label.bind (·.description)⟩

/-- The box of a step. -/
def stepBox (s : Step) (position : Nat) : Box :=
  ⟨stepKey position, .step, s.task.name, none, some s.task.target.text, some position, none⟩

/-- The arrows of a step: one from each input, one to the output. -/
def stepArrows (g : Graph) (s : Step) (position : Nat) : List Arrow :=
  (s.inputs.filterMap fun i =>
      (keyOf? g i.2.address).map fun k => ⟨k, stepKey position, some i.1⟩) ++
    ((keyOf? g s.output.address).map fun k => (⟨stepKey position, k, none⟩ : Arrow)).toList

/-- Draws a graph. -/
def ofGraph (g : Graph) : Drawing :=
  let boxes := g.assets.mapIdx (fun i a => assetBox a i) ++ g.steps.mapIdx (fun i s => stepBox s i)
  let arrows := (g.steps.mapIdx fun i s => stepArrows g s i).flatten
  ⟨boxes, arrows,
    ⟨g.assets.length, g.steps.length, arrows.length, g.terminals.map Address.text⟩⟩

/-- A label that double quotes cannot end. -/
def plain (label : String) : String := Text.swap '"' '\'' label

/-- The line of a box in a Mermaid flowchart. -/
def mermaidBox (b : Box) : String :=
  let label := plain b.label
  match b.shape with
  | .storage => "    " ++ b.id ++ "[(\"" ++ label ++ "\")]\n"
  | .step =>
    match b.order with
    | some n => "    " ++ b.id ++ "[\"" ++ toString (n + 1) ++ ". " ++ label ++ "\"]\n"
    | none => "    " ++ b.id ++ "[\"" ++ label ++ "\"]\n"

/-- The line of an arrow in a Mermaid flowchart. -/
def mermaidArrow (a : Arrow) : String :=
  match a.label with
  | some label => "    " ++ a.source ++ " -->|" ++ plain label ++ "| " ++ a.target ++ "\n"
  | none => "    " ++ a.source ++ " --> " ++ a.target ++ "\n"

/-- A Mermaid flowchart from left to right. -/
def mermaid (d : Drawing) : String :=
  "flowchart LR\n" ++ String.join (d.boxes.map mermaidBox) ++ String.join (d.arrows.map mermaidArrow)

/-- The line of a box in a Graphviz graph. -/
def dotBox (b : Box) : String :=
  let shape := match b.shape with
    | .storage => "cylinder"
    | .step => "box"
  "    " ++ b.id ++ " [label=\"" ++ plain b.label ++ "\", shape=" ++ shape ++ "];\n"

/-- The line of an arrow in a Graphviz graph. -/
def dotArrow (a : Arrow) : String :=
  match a.label with
  | some label => "    " ++ a.source ++ " -> " ++ a.target ++ " [label=\"" ++ plain label ++ "\"];\n"
  | none => "    " ++ a.source ++ " -> " ++ a.target ++ ";\n"

/-- A Graphviz graph from left to right. -/
def dot (d : Drawing) : String :=
  "digraph lineage \x7b\n    rankdir=LR;\n" ++ String.join (d.boxes.map dotBox) ++
    String.join (d.arrows.map dotArrow) ++ "\x7d\n"

end Drawing

end Provenance
