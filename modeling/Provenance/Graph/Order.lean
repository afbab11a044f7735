import Provenance.Graph.Survey

/-! # The order of execution

A step comes after every step that it reads from, and where that leaves a choice the step that was
declared first comes first. Every step counts the steps that it still waits for; a step whose count is
zero is ready, and placing a step lowers the counts of those that read from it. -/

namespace Provenance.Order

/-- The distinct steps that a step reads from. -/
def upstream (v : Survey) (s : Step) : List StepId :=
  (s.inputs.filterMap fun i => v.producerId? i.2.address).eraseDups

/-- The steps of a survey, each once. -/
def steps (v : Survey) : List Step :=
  v.producers.foldl (fun found e => if found.any (·.id == e.2.id) then found else found ++ [e.2]) []

/-- Puts a number into an ascending list. -/
def place (id : StepId) : List StepId → List StepId
  | [] => [id]
  | other :: rest =>
    if id < other then id :: other :: rest
    else if id = other then other :: rest
    else other :: place id rest

/-- How many steps each step still waits for, and the ascending list of those that are ready. -/
structure Waiting where
  counts : List (StepId × Nat)
  ready : List StepId

/-- Tells a step that one of those it waits for is placed. -/
def Waiting.lower (w : Waiting) (id : StepId) : Waiting :=
  match w.counts.lookup id with
  | none => w
  | some n => ⟨assign id (n - 1) w.counts, if n - 1 = 0 then place id w.ready else w.ready⟩

/-- Places the ready steps one after the other, the smallest number first; at most `fuel` of them. -/
def settle (readers : StepId → List StepId) : Nat → Waiting → List StepId
  | 0, _ => []
  | fuel + 1, w =>
    match w.ready with
    | [] => []
    | id :: ready => id :: settle readers fuel ((readers id).foldl Waiting.lower { w with ready })

/-- The counts before anything is placed. -/
def start (v : Survey) (all : List Step) : Waiting :=
  let counts := all.map fun s => (s.id, (upstream v s).length)
  ⟨counts, ((counts.filter (·.2 == 0)).map (·.1)).foldr place []⟩

/-- The numbers of the steps in the order of execution. -/
def ids (v : Survey) : List StepId :=
  let all := steps v
  let readers := fun id => (all.filter fun s => id ∈ upstream v s).map (·.id)
  settle readers all.length (start v all)

/-- The steps in the order of execution. Steps that wait for each other are a cycle, reported by the
sorted names of their outputs. -/
def ofSurvey (v : Survey) : Except Fault (List Step) :=
  let placed := ids v
  let stuck := (steps v).filter (·.id ∉ placed)
  if stuck.isEmpty then .ok (placed.filterMap fun id => (steps v).find? (·.id == id))
  else .error (.cycle ((stuck.map (·.output.address.name)).mergeSort (· ≤ ·)))

end Provenance.Order
