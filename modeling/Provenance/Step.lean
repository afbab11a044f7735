import Provenance.Asset
import Provenance.Task

/-! # Steps

A step applies a task to assets and puts its data into another one. -/

namespace Provenance

/-- One application of a task. The output is a handle without lineage; each input stands under the
parameter that it is given to. -/
structure Step where
  id : StepId
  task : Task
  inputs : List (String × Asset)
  output : Asset
  replaces : Bool

namespace Step

/-- The first input under a parameter. -/
def input? (s : Step) (param : String) : Option Asset := s.inputs.lookup param

/-- What the step is called. -/
def label (s : Step) : String := s.task.name ++ " -> " ++ s.output.address.name

/-- The steps that the handles of the inputs come from. -/
def parents (s : Step) : List StepId := s.inputs.filterMap (·.2.lineage)

/-- The kind of target that the step runs on. -/
def kind (s : Step) : TargetKind := s.task.target.kind

end Step

end Provenance
