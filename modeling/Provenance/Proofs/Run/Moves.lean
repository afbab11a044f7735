import Provenance.Proofs.Assoc
import Provenance.Run.State

/-!
# The moves of a run

`Setup.act` answers what a choice leads to.  Read the other way round, a state that a choice leads to
comes from one of seven moves (`Move`, `move_of_act`), each by a choice of its own kind; a worker moves
from one stage to another in one of eight ways (`Advance`, `advance_of_work`).  Invariants of a run are
proved move by move (`Reaches.invariant`).

Most of what the scheduler keeps track of is out of the reach of workers and of requests to stop
(`Keeps`).
-/

namespace Provenance.Run

universe u

variable {σ : Type u}

/-- The places of the steps that have a worker. -/
def State.busy (s : State σ) : List ℕ := s.working.map (·.1)

/-- The stage that the worker of a step goes to, and what else its move changes. -/
inductive Advance (j : Setup σ) (step : Step) (s : State σ) : Stage → Stage → State σ → Prop
  | memory {got : Inputs} {param : String} {data : Dataset} {rest : List (String × Source)} :
      Advance j step s (.reading got ((param, .memory data) :: rest))
        (.reading (got.insert param data) rest) s
  | stored {got : Inputs} {param : String} {a : Asset} {rest : List (String × Source)}
      {data : Dataset} {store : σ} : j.store.read a s.store = (.ok data, store) →
      Advance j step s (.reading got ((param, .storage a) :: rest))
        (.reading (got.insert param data) rest) { s with store }
  | missed {got : Inputs} {param : String} {a : Asset} {rest : List (String × Source)}
      {fault : Fault} {store : σ} : j.store.read a s.store = (.error fault, store) →
      Advance j step s (.reading got ((param, .storage a) :: rest)) (.ended (.error fault))
        { s with store }
  | computed {got : Inputs} {data : Dataset} (log : List String) (stopAsked : Bool) :
      (s.stopAsked = true → stopAsked = true) → ((j.engine step).perform step got).result = .ok data →
      Advance j step s (.reading got []) (if j.mustWrite step then .writing data else .ended (.ok data))
        { s with log, stopAsked }
  | aborted {got : Inputs} {cause : TaskFailure} (log : List String) (stopAsked : Bool) :
      (s.stopAsked = true → stopAsked = true) → ((j.engine step).perform step got).result = .error cause →
      Advance j step s (.reading got [])
        (.ended (.error (.execution step.id step.task.name cause))) { s with log, stopAsked }
  | wrote {data : Dataset} {store : σ} :
      j.store.write (j.handle step.output) data s.store = (.ok (), store) →
      Advance j step s (.writing data) (.noting data) { s with store }
  | refused {data : Dataset} {fault : Fault} {store : σ} :
      j.store.write (j.handle step.output) data s.store = (.error fault, store) →
      Advance j step s (.writing data) (.ended (.error fault)) { s with store }
  | noted {data : Dataset} :
      Advance j step s (.noting data) (.ended (.ok data))
        (s.note (.written (j.handle step.output).address) step)

/-- What a choice can lead to. -/
inductive Move (j : Setup σ) (s : State σ) : Choice → State σ → Prop
  | ask : Move j s .ask { s with stopAsked := true }
  | wait {stopped : Bool} : s.phase = .filling → (s.stopped = true → stopped = true) →
      (stopped = true → s.stopped = true ∨ s.stopAsked = true) →
      (s.failure.isSome ∨ stopped = true ∨ j.bound ≤ s.working.length ∨ j.nextReady? s = none) →
      Move j s .schedule { s with phase := .waiting, stopped }
  | start {place : ℕ} {step : Step} : s.phase = .filling → s.failure = none → s.stopAsked = false →
      s.working.length < j.bound → j.nextReady? s = some place → j.step? place = some step →
      Move j s .schedule (j.start s place step)
  | close : s.phase = .waiting → s.working = [] → Move j s .schedule { s with phase := .over }
  | work {place : ℕ} {step : Step} {stage stage' : Stage} {rest : State σ} :
      j.step? place = some step → s.working.lookup place = some stage →
      Advance j step s stage stage' rest → Move j s (.work place) (rest.moveTo place stage')
  | finish {place : ℕ} {step : Step} {data : Dataset} : s.phase = .waiting →
      j.step? place = some step → s.working.lookup place = some (.ended (.ok data)) →
      Move j s (.collect place)
        (j.finish { s with phase := .filling, working := unassign place s.working } place step data)
  | fail {place : ℕ} {step : Step} {fault : Fault} : s.phase = .waiting →
      j.step? place = some step → s.working.lookup place = some (.ended (.error fault)) →
      Move j s (.collect place)
        (Setup.fail { s with phase := .filling, working := unassign place s.working } place step fault)

section

variable {j : Setup σ} {s t : State σ}

/-- **A worker moves in one of eight ways.** -/
theorem advance_of_work {place : ℕ} {step : Step} {stage : Stage}
    (h : j.work s place step stage = some t) :
    ∃ stage' rest, Advance j step s stage stage' rest ∧ t = rest.moveTo place stage' := by
  unfold Setup.work at h
  split at h
  · exact ⟨_, _, .memory, (Option.some.inj h).symm⟩
  · rename_i got param a rest
    cases hread : j.store.read a s.store with
    | mk result store =>
      rw [hread] at h
      cases result with
      | ok data => exact ⟨_, _, .stored hread, (Option.some.inj h).symm⟩
      | error fault => exact ⟨_, _, .missed hread, (Option.some.inj h).symm⟩
  · rename_i got
    have hasked (cancels : Bool) : s.stopAsked = true → (s.stopAsked || cancels) = true :=
      fun h => by rw [h, Bool.true_or]
    dsimp only at h
    split at h
    · rename_i cause hcause
      exact ⟨_, _, .aborted _ _ (hasked _) hcause, (Option.some.inj h).symm⟩
    · rename_i data hdata
      exact ⟨_, _, .computed _ _ (hasked _) hdata, (Option.some.inj h).symm⟩
  · rename_i data
    cases hwrite : j.store.write (j.handle step.output) data s.store with
    | mk result store =>
      rw [hwrite] at h
      cases result with
      | ok _ => exact ⟨_, _, .wrote hwrite, (Option.some.inj h).symm⟩
      | error fault => exact ⟨_, _, .refused hwrite, (Option.some.inj h).symm⟩
  · exact ⟨_, _, .noted, (Option.some.inj h).symm⟩
  · exact absurd h (by simp)

theorem isReady_iff {place : ℕ} : j.isReady s place = true ↔
    place ∉ s.started ∧ ∃ step, j.step? place = some step ∧ ∀ q ∈ j.awaits step, q ∈ s.done := by
  unfold Setup.isReady
  cases j.step? place with
  | none => simp
  | some step => simp

/-- A ready place has a step, which has not started and waits for none. -/
theorem step?_of_nextReady? {place : ℕ} (h : j.nextReady? s = some place) :
    place ∉ s.started ∧ ∃ step, j.step? place = some step ∧ ∀ q ∈ j.awaits step, q ∈ s.done :=
  isReady_iff.1 (List.find?_some h)

theorem ready_of_nextReady? {place : ℕ} {step : Step} (h : j.nextReady? s = some place)
    (hplace : j.step? place = some step) : place ∉ s.started ∧ ∀ q ∈ j.awaits step, q ∈ s.done := by
  obtain ⟨hfresh, step', hstep, hawaits⟩ := step?_of_nextReady? h
  rw [hplace] at hstep
  rw [Option.some.inj hstep]
  exact ⟨hfresh, hawaits⟩

theorem move_of_fill (hphase : s.phase = .filling) : Move j s .schedule (j.fill s) := by
  unfold Setup.fill
  split
  · rename_i hfull
    rw [Bool.or_eq_true, decide_eq_true_eq] at hfull
    exact .wait hphase id .inl (hfull.imp_right fun h => .inr (.inl h))
  · rename_i hfree
    rw [Bool.or_eq_true, decide_eq_true_eq, not_or, Nat.not_le] at hfree
    split
    · rename_i hasked
      exact .wait hphase (fun _ => rfl) (fun _ => .inr hasked) (.inr (.inl rfl))
    · rename_i hasked
      split
      · rename_i hnone
        exact .wait hphase id .inl (.inr (.inr (.inr hnone)))
      · rename_i place hplace
        obtain ⟨-, step, hstep, -⟩ := step?_of_nextReady? hplace
        rw [hstep]
        exact .start hphase (by simpa using hfree.1) (by simpa using hasked) hfree.2 hplace hstep

/-- **What a choice leads to is one of seven moves.** -/
theorem move_of_act {c : Choice} (h : j.act s c = some t) : Move j s c t := by
  cases c with
  | ask =>
    obtain rfl := Option.some.inj h
    exact .ask
  | schedule =>
    unfold Setup.act at h
    dsimp only at h
    split at h
    · rename_i hphase
      obtain rfl := Option.some.inj h
      exact move_of_fill hphase
    · rename_i hphase
      split at h
      · rename_i hempty
        obtain rfl := Option.some.inj h
        exact .close hphase (List.isEmpty_iff.1 hempty)
      · exact absurd h (by simp)
    · exact absurd h (by simp)
  | work place =>
    unfold Setup.act at h
    dsimp only at h
    split at h
    · rename_i step stage hstep hstage
      obtain ⟨stage', rest, hadvance, rfl⟩ := advance_of_work h
      exact .work hstep hstage hadvance
    · exact absurd h (by simp)
  | collect place =>
    unfold Setup.act at h
    dsimp only at h
    split at h
    · rename_i step result hphase hstep hstage
      obtain rfl := Option.some.inj h
      cases result with
      | ok data => exact .finish hphase hstep hstage
      | error fault => exact .fail hphase hstep hstage
    · exact absurd h (by simp)

/-- **What every move keeps, a run keeps.** -/
theorem Setup.Reaches.invariant {P : State σ → Prop} (hmove : ∀ s c t, P s → Move j s c t → P t)
    (h : j.Reaches s t) (hs : P s) : P t := by
  induction h with
  | refl => exact hs
  | step c _ hact ih => exact hmove _ c _ ih (move_of_act hact)

/-! ## What workers leave alone -/

/-- Two states in which the scheduler has the same in its books. -/
structure Keeps (s t : State σ) : Prop where
  phase : t.phase = s.phase
  started : t.started = s.started
  busy : t.busy = s.busy
  done : t.done = s.done
  made : t.made = s.made
  completed : t.completed = s.completed
  failure : t.failure = s.failure
  stopped : t.stopped = s.stopped

theorem busy_moveTo {place : ℕ} (stage : Stage) (h : place ∈ s.busy) :
    (s.moveTo place stage).busy = s.busy := by
  unfold State.busy State.moveTo
  rw [map_fst_assign, if_pos (show place ∈ s.working.map (·.1) from h)]

theorem mem_busy_of_lookup {place : ℕ} {stage : Stage} (h : s.working.lookup place = some stage) :
    place ∈ s.busy := mem_keys_of_lookup h

theorem Advance.working {step : Step} {stage stage' : Stage} {rest : State σ}
    (h : Advance j step s stage stage' rest) : rest.working = s.working := by
  cases h <;> rfl

/-- A worker moves alone. -/
theorem Advance.lookup_moveTo {step : Step} {stage stage' : Stage} {rest : State σ}
    (h : Advance j step s stage stage' rest) (place p : ℕ) :
    (rest.moveTo place stage').working.lookup p =
      if p = place then some stage' else s.working.lookup p := by
  rw [← h.working]
  exact lookup_assign place p stage' rest.working

/-- The stage of a step after a worker has moved is the one that it moved to, or the one from before. -/
theorem Advance.of_lookup {place p : ℕ} {step other : Step} {stage stage' found : Stage} {rest : State σ}
    (h : Advance j step s stage stage' rest) (hstep : j.step? place = some step)
    (hother : j.step? p = some other)
    (hfound : (rest.moveTo place stage').working.lookup p = some found) :
    p = place ∧ other = step ∧ found = stage' ∨ p ≠ place ∧ s.working.lookup p = some found := by
  rw [h.lookup_moveTo] at hfound
  by_cases hp : p = place
  · subst hp
    rw [if_pos rfl] at hfound
    exact .inl ⟨rfl, Option.some.inj (hother.symm.trans hstep), (Option.some.inj hfound).symm⟩
  · rw [if_neg hp] at hfound
    exact .inr ⟨hp, hfound⟩

/-- Workers keep the books of the scheduler. -/
theorem Advance.keeps {step : Step} {stage stage' : Stage} {rest : State σ} {place : ℕ}
    (h : Advance j step s stage stage' rest) (hplace : place ∈ s.busy) :
    Keeps s (rest.moveTo place stage') := by
  have hbusy : rest.busy = s.busy := by
    unfold State.busy
    rw [h.working]
  constructor
  case busy => rw [busy_moveTo _ (hbusy ▸ hplace), hbusy]
  all_goals cases h <;> rfl

end

end Provenance.Run
