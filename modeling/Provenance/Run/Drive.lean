import Provenance.Run.Queue

/-! # One way through a run

Of all the ways in which workers can take turns, this one always moves the worker that started first and
picks it up as soon as it has ended. The number of moves of a run is bounded by its steps and their
inputs. -/

namespace Provenance.Run

universe u

variable {σ : Type u}

/-- The next choice on this way. -/
def State.next (s : State σ) : Choice :=
  match s.phase, s.working with
  | .waiting, (place, .ended _) :: _ => .collect place
  | .waiting, (place, _) :: _ => .work place
  | _, _ => .schedule

/-- What is left of a run. -/
structure Ending (σ : Type u) where
  outcome : Except Fault Report
  store : σ
  log : List String

namespace Setup

/-- A bound for the number of moves: a step is started, reads its inputs, computes, writes, takes a note,
is picked up, and lets the scheduler fill and wait again. -/
def moves (j : Setup σ) : Nat := (j.graph.steps.flatMap (·.inputs)).length + 8 * j.graph.steps.length + 4

/-- Goes this way for a number of moves. -/
def driveQueued (j : Setup σ) : Nat → Queued σ → Queued σ
  | 0, d => d
  | n + 1, d =>
    match d.act j d.state.next with
    | some d => driveQueued j n d
    | none => d

/-- Runs a graph on a state of its storage. -/
def run (j : Setup σ) (store : σ) (stopAsked : Bool) : Ending σ :=
  let s := (j.driveQueued j.moves (.initial j store stopAsked)).state
  ⟨j.outcome s, s.store, s.log⟩

end Setup

end Provenance.Run
