import Provenance.Infra.Plan
import Provenance.Step

/-! # Providers

A provider turns assets, steps, schedules and monitoring into resources. What it cannot express it
refuses; schedules and monitoring are refused unless a provider says otherwise. -/

namespace Provenance

/-- How a step uses an asset. -/
inductive Access where
  | read
  | write
  deriving DecidableEq, Repr

/-- The word for a use. -/
def Access.word : Access → String
  | .read => "read"
  | .write => "write"

/-- An asset that a step touches, with the resource of its storage if it has one. -/
structure Binding where
  asset : Asset
  resource : Option Resource
  access : Access

/-- The uses of storage among bindings. -/
def stored (bindings : List Binding) : List (Access × Asset × Resource) :=
  bindings.filterMap fun b => b.resource.map fun r => (b.access, b.asset, r)

/-- What the resources of a step are made for. -/
def Step.origin (s : Step) : String := "step:" ++ s.output.address.text

/-- The resource that runs a step, and those that give it access to storage. -/
structure Runner where
  compute : Resource
  access : List Resource

/-- What a provider makes of the parts of a graph. -/
structure Provider where
  name : String
  nameFor : Asset → String
  storage : Asset → StorageSpec → Except Fault Resource
  compute : Step → List Binding → Except Fault Runner
  schedule : Step → Schedule → ResourceId → Except Fault Resource :=
    fun s _ _ => .error (.compilation s.origin .schedule name)
  monitoring : Step → Monitoring → ResourceId → Except Fault (List Resource) :=
    fun s _ _ => .error (.compilation s.origin .monitoring name)

end Provenance
