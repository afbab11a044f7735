import Provenance.Assoc
import Provenance.Graph.Basic
import Provenance.Infra.Provider

/-! # Compiling a graph into a plan

Steps are compiled in the order of execution: first the storage that a step touches, then the resource
that runs it, then what starts and what watches it. A runner depends on the storage of the step, on its
access resources and on the runners of the steps that it reads from. Storage that no step touches comes
last, and in the end every dependency has to be in the plan.

Hooks change a resource after it is made and before anything else sees it. -/

namespace Provenance

/-- Changes to the resources of storage and of steps, listed under the address of the storage and of
the output of the step. -/
structure Hooks where
  storage : List (Address × (Resource → Resource))
  compute : List (Address × (Resource → Resource))

namespace Hooks

/-- No changes. -/
def none : Hooks := ⟨[], []⟩

/-- Applies the changes that are listed under an address, in their order. -/
def apply (hooks : List (Address × (Resource → Resource))) (a : Address) (r : Resource) : Resource :=
  hooks.foldl (fun r h => if h.1 = a then h.2 r else r) r

end Hooks

/-- What a provider was asked for. -/
inductive Call where
  | storage (asset : Asset)
  | compute (step : Step) (bindings : List Binding)

/-- The state of a compilation: the plan so far, the storage of the addresses that were looked at, the
runners of the steps, and what the provider was asked for. -/
structure Compilation where
  plan : Plan
  stores : List (Address × Option ResourceId)
  runners : List (StepId × ResourceId)
  calls : List Call

namespace Compilation

/-- Adds a resource to the plan. -/
def insert (c : Compilation) (r : Resource) : Except Fault Compilation :=
  let (result, plan) := c.plan.insert r
  result.map fun _ => { c with plan }

/-- The storage of an address, if it has any. -/
def store? (c : Compilation) (a : Address) : Option ResourceId := (c.stores.lookup a).join

/-- Makes the storage of an address, unless the address was looked at before. -/
def ensureStore (p : Provider) (h : Hooks) (g : Graph) (c : Compilation) (a : Address) :
    Except Fault Compilation :=
  if (c.stores.lookup a).isSome then .ok c
  else match (g.asset? a).bind fun x => x.storage.map (x, ·) with
    | none => .ok { c with stores := c.stores ++ [(a, none)] }
    | some (asset, spec) => do
      let made ← p.storage asset spec
      let r := Hooks.apply h.storage a (made.madeFor a.text)
      let c ← c.insert r
      return { c with
        calls := c.calls ++ [.storage asset]
        stores := c.stores ++ [(a, some r.id)] }

/-- The addresses that a step touches: its inputs, then its output. -/
def touched (s : Step) : List (Address × Access) :=
  s.inputs.map (fun i => (i.2.address, .read)) ++ [(s.output.address, .write)]

/-- The bindings of a step. -/
def bindings (g : Graph) (c : Compilation) (s : Step) : List Binding :=
  (touched s).filterMap fun (a, access) =>
    (g.asset? a).map fun asset => ⟨asset, (c.store? a).bind c.plan.get?, access⟩

/-- Makes the runner of a step, with its dependencies. -/
def makeRunner (p : Provider) (h : Hooks) (g : Graph) (c : Compilation) (s : Step) :
    Except Fault (Runner × Compilation) := do
  let bs := bindings g c s
  let made ← p.compute s bs
  let stores := (touched s).filterMap fun t => c.store? t.1
  let parents := (g.upstream s.id).filterMap fun id => c.runners.lookup id
  let compute := (((made.compute.madeFor s.origin).dependAll stores).dependAll
    (made.access.map Resource.id)).dependAll parents
  return (⟨Hooks.apply h.compute s.output.address compute, made.access⟩,
    { c with calls := c.calls ++ [.compute s bs] })

/-- Makes what starts a step. -/
def addTrigger (p : Provider) (s : Step) (runner : ResourceId) (c : Compilation) :
    Except Fault Compilation :=
  match s.task.schedule with
  | none => .ok c
  | some schedule => do
    let trigger ← p.schedule s schedule runner
    c.insert ((trigger.depend runner).madeFor s.origin)

/-- Makes what watches a step. -/
def addAlerts (p : Provider) (s : Step) (runner : ResourceId) (c : Compilation) :
    Except Fault Compilation :=
  match s.task.monitoring with
  | none => .ok c
  | some monitoring => do
    let alerts ← p.monitoring s monitoring runner
    alerts.foldlM (fun c alert => c.insert ((alert.depend runner).madeFor s.origin)) c

/-- Compiles a step. -/
def addStep (p : Provider) (h : Hooks) (g : Graph) (c : Compilation) (s : Step) :
    Except Fault Compilation := do
  let c ← (touched s).foldlM (fun c t => ensureStore p h g c t.1) c
  let (runner, c) ← makeRunner p h g c s
  let c ← c.insert runner.compute
  let c ← runner.access.foldlM (fun c r => c.insert (r.madeFor s.origin)) c
  let c ← addTrigger p s runner.compute.id c
  let c ← addAlerts p s runner.compute.id c
  return { c with runners := c.runners ++ [(s.id, runner.compute.id)] }

/-- The state before anything is compiled. -/
def start (p : Provider) : Compilation := ⟨.empty p.name, [], [], []⟩

/-- Compiles a graph. -/
def ofGraph (p : Provider) (h : Hooks) (g : Graph) : Except Fault Compilation := do
  let c ← g.steps.foldlM (addStep p h g) (start p)
  let c ← (g.assets.map (·.address)).foldlM (ensureStore p h g) c
  let plan ← c.plan.checked
  return { c with plan }

end Compilation

/-- The plan for a graph. -/
def Plan.ofGraph (p : Provider) (h : Hooks) (g : Graph) : Except Fault Plan :=
  (Compilation.ofGraph p h g).map (·.plan)

end Provenance
