import Provenance.Run.Report

/-! # Running a graph

A scheduler starts steps and picks up what they made; workers read inputs, compute, write and take
notes, each in its own time. A run is a sequence of choices: who acts next, and when a request to stop
comes in. `Setup.act` says what each choice does, and that some are not open. Whatever is said of all
sequences of choices holds however fast the workers are.

The scheduler fills free workers with the steps that are ready, the first in the order of execution
first. When no worker is free or no step is ready it waits, picks up one worker that has ended, and
fills again. After a failure, or when it has seen the request to stop, it starts nothing more; steps
that run are always waited for. -/

namespace Provenance.Run

universe u

/-- What a worker is at. Each input is read on its own; data that is to be written is written first
and noted in the trace after that. -/
inductive Stage where
  | reading (got : Inputs) (rest : List (String × Source))
  | writing (data : Dataset)
  | noting (data : Dataset)
  | ended (result : Except Fault Dataset)

/-- What the scheduler is at. -/
inductive Phase where
  | filling
  | waiting
  | over
  deriving DecidableEq, Repr

/-- The state of a run. Steps are known by their places in the order of execution. -/
structure State (σ : Type u) where
  store : σ
  stopAsked : Bool
  phase : Phase
  started : List Nat
  working : List (Nat × Stage)
  done : List Nat
  made : List (Address × Dataset)
  completed : List Completed
  written : List Address
  failure : Option (Nat × Fault)
  stopped : Bool
  trace : List Entry
  log : List String

/-- Who acts next: a request to stop comes in, the scheduler moves on, the worker of a step moves on,
or the scheduler picks up the worker of a step. -/
inductive Choice where
  | ask
  | schedule
  | work (place : Nat)
  | collect (place : Nat)
  deriving DecidableEq, Repr

namespace State

variable {σ : Type u}

/-- The state before a run. -/
def initial (store : σ) (stopAsked : Bool) : State σ :=
  ⟨store, stopAsked, .filling, [], [], [], [], [], [], none, false, [], []⟩

/-- Notes what happened to a step. -/
def note (s : State σ) (event : Event) (step : Step) : State σ :=
  { s with trace := s.trace ++ [⟨s.trace.length, event, step.id, step.task.name⟩] }

/-- Moves the worker of a step to a stage. -/
def moveTo (s : State σ) (place : Nat) (stage : Stage) : State σ :=
  { s with working := assign place stage s.working }

end State

namespace Setup

variable {σ : Type u}

/-- The step at a place. -/
def step? (j : Setup σ) (place : Nat) : Option Step := j.graph.steps[place]?

/-- Whether a step has not started and waits for none. -/
def isReady (j : Setup σ) (s : State σ) (place : Nat) : Bool :=
  !s.started.contains place &&
    match j.step? place with
    | none => false
    | some step => (j.awaits step).all s.done.contains

/-- The first step that is ready. -/
def nextReady? (j : Setup σ) (s : State σ) : Option Nat :=
  (List.range j.graph.steps.length).find? (j.isReady s)

/-- Starts a step; where its inputs come from is decided now. -/
def start (j : Setup σ) (s : State σ) (place : Nat) (step : Step) : State σ :=
  let s := s.note .started step
  { s with
    started := s.started ++ [place]
    working := s.working ++ [(place, .reading .empty (j.plan step s.made))] }

/-- One turn of the scheduler while it fills free workers. -/
def fill (j : Setup σ) (s : State σ) : State σ :=
  if s.failure.isSome || j.bound ≤ s.working.length then { s with phase := .waiting }
  else if s.stopAsked then { s with phase := .waiting, stopped := true }
  else match j.nextReady? s with
    | none => { s with phase := .waiting }
    | some place =>
      match j.step? place with
      | none => { s with phase := .waiting }
      | some step => j.start s place step

/-- One move of a worker. -/
def work (j : Setup σ) (s : State σ) (place : Nat) (step : Step) (stage : Stage) :
    Option (State σ) :=
  match stage with
  | .reading got ((param, .memory data) :: rest) =>
    some (s.moveTo place (.reading (got.insert param data) rest))
  | .reading got ((param, .storage a) :: rest) =>
    let (result, store) := j.store.read a s.store
    let s := { s with store }
    match result with
    | .ok data => some (s.moveTo place (.reading (got.insert param data) rest))
    | .error fault => some (s.moveTo place (.ended (.error fault)))
  | .reading got [] =>
    let attempt := (j.engine step).perform step got
    let s := { s with log := s.log ++ attempt.log, stopAsked := s.stopAsked || attempt.cancels }
    match attempt.result with
    | .error cause => some (s.moveTo place (.ended (.error (.execution step.id step.task.name cause))))
    | .ok data =>
      some (s.moveTo place (if j.mustWrite step then .writing data else .ended (.ok data)))
  | .writing data =>
    let (result, store) := j.store.write (j.handle step.output) data s.store
    let s := { s with store }
    match result with
    | .ok _ => some (s.moveTo place (.noting data))
    | .error fault => some (s.moveTo place (.ended (.error fault)))
  | .noting data =>
    some ((s.note (.written (j.handle step.output).address) step).moveTo place (.ended (.ok data)))
  | .ended _ => none

/-- Picks up the data of a step. -/
def finish (j : Setup σ) (s : State σ) (place : Nat) (step : Step) (data : Dataset) : State σ :=
  let out := step.output.address
  let s := s.note .finished step
  { s with
    done := s.done ++ [place]
    made := assign out data s.made
    completed := s.completed ++
      [⟨step.id, step.task.name, out, step.kind, (j.engine step).name, data.size⟩]
    written := if j.mustWrite step then s.written ++ [out] else s.written }

/-- Picks up the failure of a step. Of several failures the first in the order of execution stays. -/
def fail (s : State σ) (place : Nat) (step : Step) (fault : Fault) : State σ :=
  let s := s.note .failed step
  match s.failure with
  | some (first, _) => if place < first then { s with failure := some (place, fault) } else s
  | none => { s with failure := some (place, fault) }

/-- Picks up a worker that has ended. -/
def collect (j : Setup σ) (s : State σ) (place : Nat) (step : Step) :
    Except Fault Dataset → State σ
  | .ok data => j.finish { s with phase := .filling, working := unassign place s.working } place step data
  | .error fault => fail { s with phase := .filling, working := unassign place s.working } place step fault

/-- The state after a choice, if the choice is open. -/
def act (j : Setup σ) (s : State σ) : Choice → Option (State σ)
  | .ask => some { s with stopAsked := true }
  | .schedule =>
    match s.phase with
    | .filling => some (j.fill s)
    | .waiting => if s.working.isEmpty then some { s with phase := .over } else none
    | .over => none
  | .work place =>
    match j.step? place, s.working.lookup place with
    | some step, some stage => j.work s place step stage
    | _, _ => none
  | .collect place =>
    match s.phase, j.step? place, s.working.lookup place with
    | .waiting, some step, some (.ended result) => some (j.collect s place step result)
    | _, _, _ => none

/-- The states that choices can lead to. -/
inductive Reaches (j : Setup σ) : State σ → State σ → Prop where
  | refl (s : State σ) : Reaches j s s
  | step {s t u : State σ} (c : Choice) : Reaches j s t → j.act t c = some u → Reaches j s u

/-- What a run comes to. A failure counts more than a request to stop, and a request that comes after the
last step was completed counts nothing. -/
def outcome (j : Setup σ) (s : State σ) : Except Fault Report :=
  match s.failure with
  | some (_, fault) => .error fault
  | none =>
    if s.stopped && s.completed.length < j.graph.steps.length then
      .error (.cancelled (s.completed.map Completed.label))
    else
      .ok ⟨j.site, s.completed, s.written, s.trace,
        s.made.filter fun e => j.graph.isSink e.1⟩

end Setup

end Provenance.Run
