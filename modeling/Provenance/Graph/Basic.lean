import Provenance.Graph.Order

/-! # Lineage graphs

A graph shows everything that lies behind its terminals: the steps in their order of execution, the
assets that they touch, and the links between the two. It is built from handles each time it is asked
for and never changes. -/

namespace Provenance

/-- A place in a graph: data or a step. -/
inductive Vertex where
  | asset (address : Address)
  | step (id : StepId)
  deriving DecidableEq

/-- What lies behind terminals. Assets are listed in the order in which the steps touch them, terminals
that no step touches at the end. -/
structure Graph where
  terminals : List Address
  assets : List Asset
  steps : List Step
  links : List (Vertex × Vertex)

namespace Graph

/-- The graph without assets, steps and links. -/
def bare (terminals : List Address) : Graph := ⟨terminals, [], [], []⟩

/-- The handle at an address. -/
def asset? (g : Graph) (a : Address) : Option Asset := g.assets.find? (·.address == a)

/-- Adds the asset at an address, unless it is there. -/
def touch (v : Survey) (a : Address) (g : Graph) : Graph :=
  match g.asset? a with
  | some _ => g
  | none =>
    let handle := ((v.handles.lookup a).map Asset.bare).getD ⟨a, none, none, none, 0⟩
    { g with assets := g.assets ++ [handle] }

/-- The places that each place links to. -/
def successors (g : Graph) : List (Vertex × List Vertex) :=
  (g.links.map (·.1)).eraseDups.map fun u => (u, (g.links.filter (·.1 = u)).map (·.2))

/-- Adds a link, unless it is there. A link that would close a cycle is refused. -/
def link (u v : Vertex) (cycle : List String) (g : Graph) : Except Fault Graph :=
  if (u, v) ∈ g.links then .ok g
  else if u ∈ Walk.reach g.successors [] [v] then .error (.cycle cycle)
  else .ok { g with links := g.links ++ [(u, v)] }

/-- Links the inputs of a step to the step. -/
def linkInputs (v : Survey) (s : Step) (g : Graph) : Except Fault Graph :=
  s.inputs.foldlM (fun g i =>
    (g.touch v i.2.address).link (.asset i.2.address) (.step s.id)
      [i.2.address.name, s.output.address.name]) g

/-- Adds a step with its links. -/
def addStep (v : Survey) (g : Graph) (s : Step) : Except Fault Graph := do
  let g ← g.linkInputs v s
  let out := s.output.address
  let g ← (g.touch v out).link (.step s.id) (.asset out) [out.name, out.name]
  return { g with steps := g.steps ++ [s] }

/-- Builds the graph behind terminals. A closed walk is reported before steps are put in order. -/
def ofTerminals (c : Catalog) (alive : List StepId) (terminals : List Asset) : Except Fault Graph := do
  let v ← Survey.ofTerminals c alive terminals
  let addresses := terminals.map (·.address)
  match Walk.cycleFrom (Survey.sources v.producers) [] [] addresses with
  | .error walk => .error (.cycle (walk.map (·.name)))
  | .ok _ =>
    let steps ← Order.ofSurvey v
    let g ← steps.foldlM (addStep v) (bare addresses)
    return addresses.foldl (fun g a => g.touch v a) g

/-- The step with a number. -/
def step? (g : Graph) (id : StepId) : Option Step := g.steps.find? (·.id == id)

/-- The place of a step in the order of execution. -/
def position? (g : Graph) (id : StepId) : Option Nat := g.steps.findIdx? (·.id == id)

/-- The step that produces the data at an address. -/
def producer? (g : Graph) (a : Address) : Option Step := g.steps.find? (·.output.address == a)

/-- The steps that read the data at an address, in the order of execution. -/
def consumers (g : Graph) (a : Address) : List Step :=
  g.steps.filter fun s => (Vertex.asset a, Vertex.step s.id) ∈ g.links

/-- The steps that a step reads from, in the order of execution. -/
def upstream (g : Graph) (id : StepId) : List StepId :=
  match g.step? id with
  | none => []
  | some s =>
    let sources := s.inputs.filterMap fun i => (g.producer? i.2.address).map (·.id)
    (g.steps.map (·.id)).filter (· ∈ sources)

/-- The steps that read what a step writes, in the order of execution. -/
def downstream (g : Graph) (id : StepId) : List StepId :=
  match g.step? id with
  | none => []
  | some s => (g.consumers s.output.address).map (·.id)

/-- Whether no step produces the data at an address. -/
def isSource (g : Graph) (a : Address) : Bool := (g.producer? a).isNone

/-- Whether the graph holds an address that no step reads. -/
def isSink (g : Graph) (a : Address) : Bool :=
  (g.asset? a).isSome && !g.links.any fun l => l.1 == .asset a

/-- The assets without a producer. -/
def sources (g : Graph) : List Asset := g.assets.filter fun a => g.isSource a.address

/-- The assets that no step reads. -/
def sinks (g : Graph) : List Asset := g.assets.filter fun a => g.isSink a.address

/-- The pairs of a step and one that reads from it, in the order of the reader. -/
def edges (g : Graph) : List (StepId × StepId) :=
  g.steps.flatMap fun s => (g.upstream s.id).map (·, s.id)

/-- The number of places in the graph. -/
def vertexCount (g : Graph) : Nat := g.assets.length + g.steps.length

/-- The numbers of the steps, which a graph in use keeps alive. -/
def roots (g : Graph) : List StepId := g.steps.map (·.id)

end Graph

end Provenance
