import Provenance.Join

/-! # The catalog of steps

The catalog lists every step that was ever declared, and remembers for each declaration of an asset the
step that was declared into it last. It does not keep steps alive: a step counts only while some handle
in use leads back to it, from the handle to the step it comes from and from a step to the handles of its
inputs. A step that nothing leads to any more does not stand in the way of a new one, and the step
declared before it is not remembered. -/

namespace Provenance

/-- All declared steps and the last one of each declaration, in both lists the newest first, and the
number of declarations. -/
structure Catalog where
  steps : List Step
  latest : List (Nat × StepId)
  declarations : Nat

namespace Catalog

/-- The catalog in which nothing is declared. -/
def empty : Catalog := ⟨[], [], 0⟩

/-- Declares an asset. -/
def declare (c : Catalog) (name location : String) : Asset × Catalog :=
  (⟨⟨name, location⟩, none, none, none, c.declarations⟩, { c with declarations := c.declarations + 1 })

/-- The step with a number. -/
def step? (c : Catalog) (id : StepId) : Option Step := c.steps.find? (·.id == id)

/-- The steps that `reached` leads back to. The inputs of a step come from older steps, so one sweep
from the newest step to the oldest finds them all. -/
def sweep (reached : List StepId) : List Step → List StepId
  | [] => reached
  | s :: older => sweep (if s.id ∈ reached then s.parents ++ reached else reached) older

/-- The steps that are alive while handles from the steps `roots` are in use. -/
def alive (c : Catalog) (roots : List StepId) : List StepId := sweep roots c.steps

/-- The step that counts as the producer of an asset: the last one of its declaration if that is alive,
else the one that the handle comes from. -/
def producer? (c : Catalog) (alive : List StepId) (a : Asset) : Option Step :=
  (((c.latest.lookup a.declaration).filter (· ∈ alive)).or a.lineage).bind c.step?

/-- Declares a step that puts the data of a draft into `target`. -/
def bind (c : Catalog) (d : Draft) (target : Asset) (replaces : Bool) : Asset × Catalog :=
  let id := c.steps.length + 1
  (target.producedBy id,
    { c with
      steps := ⟨id, d.task, d.inputs, target.bare, replaces⟩ :: c.steps
      latest := (target.declaration, id) :: c.latest })

/-- Declares a step into an asset that has no producer. -/
def put (c : Catalog) (alive : List StepId) (d : Draft) (target : Asset) :
    Except Fault (Asset × Catalog) :=
  match c.producer? alive target with
  | some s => .error (.overwrite target.address.text s.task.name)
  | none => .ok (c.bind d target false)

/-- Declares a step into an asset, whatever produced it before. -/
def replace (c : Catalog) (d : Draft) (target : Asset) : Asset × Catalog := c.bind d target true

theorem mem_of_producer? {c : Catalog} {alive : List StepId} {a : Asset} {s : Step}
    (h : c.producer? alive a = some s) : s ∈ c.steps := by
  obtain ⟨_, _, h⟩ := Option.bind_eq_some_iff.1 h
  exact List.mem_of_find?_eq_some h

end Catalog

end Provenance
