import Provenance.Run.State

/-! # The queue of the scheduler

The scheduler does not search for a ready step. Before a run it counts for every step those that it waits
for, and queues the steps with a count of zero. It starts the first step of the queue, and whenever it
picks up the data of a step it lowers the counts of those that wait for that step; one whose count comes
to zero is queued at its place. -/

namespace Provenance.Run

universe u

variable {σ : Type u}

namespace Setup

/-- The places that the step at a place waits for. -/
def waits (j : Setup σ) (place : Nat) : List Nat := ((j.step? place).map j.awaits).getD []

/-- The places of the steps that wait for the step at a place. -/
def dependents (j : Setup σ) (place : Nat) : List Nat :=
  (List.range j.graph.steps.length).filter fun p => place ∈ j.waits p

/-- The queue before a run. -/
def queue (j : Setup σ) : Order.Waiting :=
  let counts := (List.range j.graph.steps.length).map fun p => (p, (j.waits p).length)
  ⟨counts, (counts.filter (·.2 == 0)).map (·.1)⟩

end Setup

/-- The state of a run, with the queue that the scheduler keeps. -/
structure Queued (σ : Type u) where
  state : State σ
  queue : Order.Waiting

namespace Queued

/-- The state before a run, with the queue. -/
def initial (j : Setup σ) (store : σ) (stopAsked : Bool) : Queued σ :=
  ⟨.initial store stopAsked, j.queue⟩

/-- One turn of the scheduler while it fills free workers from the queue. -/
def fill (j : Setup σ) (d : Queued σ) : Queued σ :=
  let s := d.state
  if s.failure.isSome || j.bound ≤ s.working.length then { d with state := { s with phase := .waiting } }
  else if s.stopAsked then { d with state := { s with phase := .waiting, stopped := true } }
  else match d.queue.ready with
    | [] => { d with state := { s with phase := .waiting } }
    | place :: ready =>
      match j.step? place with
      | none => { d with queue := { d.queue with ready } }
      | some step => ⟨j.start s place step, { d.queue with ready }⟩

/-- The queue after a worker was picked up. Data lowers the counts of those that wait for it. -/
def release (j : Setup σ) (queue : Order.Waiting) (place : Nat) : Option Stage → Order.Waiting
  | some (.ended (.ok _)) => (j.dependents place).foldl Order.Waiting.lower queue
  | _ => queue

/-- The state and the queue after a choice, if the choice is open. -/
def act (j : Setup σ) (d : Queued σ) (c : Choice) : Option (Queued σ) :=
  match c, d.state.phase with
  | .schedule, .filling => some (d.fill j)
  | .collect place, _ =>
    (j.act d.state c).map fun s => ⟨s, release j d.queue place (d.state.working.lookup place)⟩
  | _, _ => (j.act d.state c).map fun s => { d with state := s }

end Queued

end Provenance.Run
