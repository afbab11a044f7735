import Provenance.Proofs.Run.Schedule

/-!
# One step after the other

Without workers a graph is run by taking its steps in the order of execution: a step gets its inputs, is
computed, its data is written if it has to be, and what became of it is entered; the first step that fails
ends it (`Setup.interpret`).

A run with one worker comes to the same.  The scheduler goes by what is started and done and not by the
list, but with one worker what is done is a beginning of the list, and the first step that is ready is the
next of the list (`nextReady?_eq`), since a step waits for earlier ones only.  Between two steps the state is
that of the steps so far; while a worker is at a step, what is left of its stages leads to what the step
comes to (`Setup.conclude`); and a step that has failed is the last (`Turn`).  Every move keeps this
(`Turn.act`).
-/

namespace Provenance.Run

universe u

variable {σ : Type u}

/-! ## 1.  Taking steps -/

/-- What a run has come to, apart from who is at what. -/
structure Tally (σ : Type u) where
  store : σ
  made : List (Address × Dataset)
  completed : List Completed
  written : List Address
  trace : List Entry
  log : List String

/-- Where a run begins. -/
def Tally.initial (store : σ) : Tally σ := ⟨store, [], [], [], [], []⟩

/-- Notes what happened to a step. -/
def Tally.note (x : Tally σ) (event : Event) (step : Step) : Tally σ :=
  { x with trace := x.trace ++ [⟨x.trace.length, event, step.id, step.task.name⟩] }

/-- What a state has come to. -/
def State.tally (s : State σ) : Tally σ :=
  ⟨s.store, s.made, s.completed, s.written, s.trace, s.log⟩

/-- Goes on with what was got, unless there was a fault. -/
def andThen {α β : Type} (r : Except Fault α × Tally σ)
    (next : α → Tally σ → Except Fault β × Tally σ) : Except Fault β × Tally σ :=
  match r with
  | (.ok a, x) => next a x
  | (.error fault, x) => (.error fault, x)

namespace Setup

/-- Gets inputs one after the other. -/
def fetch (j : Setup σ) : List (String × Source) → Inputs → Tally σ → Except Fault Inputs × Tally σ
  | [], got, x => (.ok got, x)
  | (param, .memory data) :: rest, got, x => j.fetch rest (got.insert param data) x
  | (param, .storage a) :: rest, got, x =>
    match j.store.read a x.store with
    | (.ok data, store) => j.fetch rest (got.insert param data) { x with store }
    | (.error fault, store) => (.error fault, { x with store })

/-- Has a step computed by its engine. -/
def compute (j : Setup σ) (step : Step) (inputs : Inputs) (x : Tally σ) :
    Except Fault Dataset × Tally σ :=
  let attempt := (j.engine step).perform step inputs
  (attempt.result.mapError (.execution step.id step.task.name), { x with log := x.log ++ attempt.log })

/-- Writes the data of a step and notes it. -/
def put (j : Setup σ) (step : Step) (data : Dataset) (x : Tally σ) : Except Fault Dataset × Tally σ :=
  match j.store.write (j.handle step.output) data x.store with
  | (.ok _, store) =>
    (.ok data, { x with store }.note (.written (j.handle step.output).address) step)
  | (.error fault, store) => (.error fault, { x with store })

/-- Writes the data of a step if it has to be written. -/
def keep (j : Setup σ) (step : Step) (data : Dataset) (x : Tally σ) : Except Fault Dataset × Tally σ :=
  if j.mustWrite step then j.put step data x else (.ok data, x)

/-- Gets the inputs that are left, computes a step and keeps its data. -/
def performFrom (j : Setup σ) (step : Step) (rest : List (String × Source)) (got : Inputs) (x : Tally σ) :
    Except Fault Dataset × Tally σ :=
  andThen (j.fetch rest got x) fun inputs x => andThen (j.compute step inputs x) (j.keep step)

/-- Enters what became of a step, and tells the fault if it has failed. -/
def enter (j : Setup σ) (step : Step) : Except Fault Dataset × Tally σ → Tally σ × Option Fault
  | (.ok data, x) =>
    let out := step.output.address
    ({ x.note .finished step with
        made := assign out data x.made
        completed := x.completed ++
          [⟨step.id, step.task.name, out, step.kind, (j.engine step).name, data.size⟩]
        written := if j.mustWrite step then x.written ++ [out] else x.written }, none)
  | (.error fault, x) => (x.note .failed step, some fault)

/-- Takes a step. -/
def takeStep (j : Setup σ) (step : Step) (x : Tally σ) : Tally σ × Option Fault :=
  j.enter step (j.performFrom step (j.plan step x.made) .empty (x.note .started step))

/-- **Takes steps one after the other**, up to the first that fails. -/
def interpret (j : Setup σ) : List Step → Tally σ → Tally σ × Option Fault
  | [], x => (x, none)
  | step :: steps, x =>
    match j.takeStep step x with
    | (x, none) => j.interpret steps x
    | (x, some fault) => (x, some fault)

end Setup

variable {j : Setup σ} {s t : State σ} {x y : Tally σ} {steps : List Step} {step : Step}

theorem interpret_append (more : List Step) (h : j.interpret steps x = (y, none)) :
    j.interpret (steps ++ more) x = j.interpret more y := by
  induction steps generalizing x with
  | nil =>
    obtain rfl : x = y := congrArg Prod.fst h
    rfl
  | cons step steps ih =>
    rw [Setup.interpret] at h
    rw [List.cons_append, Setup.interpret]
    split at h
    · exact ih h
    · exact absurd (congrArg Prod.snd h) (Option.some_ne_none _)

/-- Nothing is taken behind a step that has failed. -/
theorem interpret_append_of_failed (more : List Step) {fault : Fault}
    (h : j.interpret steps x = (y, some fault)) : j.interpret (steps ++ more) x = (y, some fault) := by
  induction steps generalizing x with
  | nil => exact absurd (congrArg Prod.snd h).symm (Option.some_ne_none _)
  | cons step steps ih =>
    rw [Setup.interpret] at h
    rw [List.cons_append, Setup.interpret]
    split at h
    · exact ih h
    · exact h

theorem interpret_concat (step : Step) (h : j.interpret steps x = (y, none)) :
    j.interpret (steps ++ [step]) x = j.takeStep step y := by
  rw [interpret_append [step] h, Setup.interpret]
  split
  · rename_i z hz
    rw [hz, Setup.interpret]
  · rename_i z fault hz
    rw [hz]

/-! ## 2.  What is left of a worker -/

/-- What a step comes to from a stage of its worker on. -/
def Setup.conclude (j : Setup σ) (step : Step) : Stage → Tally σ → Except Fault Dataset × Tally σ
  | .reading got rest, x => j.performFrom step rest got x
  | .writing data, x => j.put step data x
  | .noting data, x => (.ok data, x.note (.written (j.handle step.output).address) step)
  | .ended result, x => (result, x)

section

variable {got : Inputs} {param : String} {a : Asset} {rest : List (String × Source)} {data : Dataset}
  {fault : Fault} {store : σ}

theorem conclude_stored (h : j.store.read a x.store = (.ok data, store)) :
    j.conclude step (.reading got ((param, .storage a) :: rest)) x =
      j.conclude step (.reading (got.insert param data) rest) { x with store } := by
  simp only [Setup.conclude, Setup.performFrom, Setup.fetch, h]

theorem conclude_missed (h : j.store.read a x.store = (.error fault, store)) :
    j.conclude step (.reading got ((param, .storage a) :: rest)) x = (.error fault, { x with store }) := by
  simp only [Setup.conclude, Setup.performFrom, Setup.fetch, h, andThen]

theorem conclude_computed (h : ((j.engine step).perform step got).result = .ok data) :
    j.conclude step (.reading got []) x =
      j.conclude step (if j.mustWrite step then .writing data else .ended (.ok data))
        { x with log := x.log ++ ((j.engine step).perform step got).log } := by
  simp only [Setup.conclude, Setup.performFrom, Setup.fetch, andThen, Setup.compute, h, Setup.keep,
    Except.mapError]
  by_cases hmust : j.mustWrite step = true
  · simp only [if_pos hmust]
  · simp only [if_neg hmust]

theorem conclude_aborted {cause : TaskFailure}
    (h : ((j.engine step).perform step got).result = .error cause) :
    j.conclude step (.reading got []) x = (.error (.execution step.id step.task.name cause),
      { x with log := x.log ++ ((j.engine step).perform step got).log }) := by
  simp only [Setup.conclude, Setup.performFrom, Setup.fetch, andThen, Setup.compute, h, Except.mapError]

theorem conclude_wrote (h : j.store.write (j.handle step.output) data x.store = (.ok (), store)) :
    j.conclude step (.writing data) x = j.conclude step (.noting data) { x with store } := by
  simp only [Setup.conclude, Setup.put, h]

theorem conclude_refused
    (h : j.store.write (j.handle step.output) data x.store = (.error fault, store)) :
    j.conclude step (.writing data) x = (.error fault, { x with store }) := by
  simp only [Setup.conclude, Setup.put, h]

end

/-- **What a step comes to is not changed by a move of its worker.** -/
theorem conclude_work {place : ℕ} {stage : Stage} (h : j.work s place step stage = some t) :
    ∃ stage', t.working = assign place stage' s.working ∧
      j.conclude step stage s.tally = j.conclude step stage' t.tally := by
  unfold Setup.work at h
  split at h
  · obtain rfl := Option.some.inj h
    exact ⟨_, rfl, rfl⟩
  · rename_i got param a rest
    cases hread : j.store.read a s.store with
    | mk result store =>
      rw [hread] at h
      cases result with
      | ok data =>
        obtain rfl := Option.some.inj h
        exact ⟨_, rfl, conclude_stored hread⟩
      | error fault =>
        obtain rfl := Option.some.inj h
        exact ⟨_, rfl, conclude_missed hread⟩
  · rename_i got
    dsimp only at h
    split at h
    · rename_i cause hcause
      obtain rfl := Option.some.inj h
      exact ⟨_, rfl, conclude_aborted hcause⟩
    · rename_i data hdata
      obtain rfl := Option.some.inj h
      exact ⟨_, rfl, conclude_computed hdata⟩
  · rename_i data
    cases hwrite : j.store.write (j.handle step.output) data s.store with
    | mk result store =>
      rw [hwrite] at h
      cases result with
      | ok _ =>
        obtain rfl := Option.some.inj h
        exact ⟨_, rfl, conclude_wrote hwrite⟩
      | error fault =>
        obtain rfl := Option.some.inj h
        exact ⟨_, rfl, conclude_refused hwrite⟩
  · obtain rfl := Option.some.inj h
    exact ⟨_, rfl, rfl⟩
  · exact absurd h (by simp)

/-! ## 3.  One worker -/

/-- How far a run with one worker has come: it is between two steps, its worker is at a step, or a step has
failed. -/
inductive Turn (j : Setup σ) (x : Tally σ) (s : State σ) : Prop
  | between {k : ℕ} : s.working = [] → s.started = List.range k → s.done = List.range k →
      s.failure = none → j.interpret (j.graph.steps.take k) x = (s.tally, none) → Turn j x s
  | within {k : ℕ} {step : Step} {stage : Stage} {y : Tally σ} : j.step? k = some step →
      s.working = [(k, stage)] → s.started = List.range (k + 1) → s.done = List.range k →
      s.failure = none → j.interpret (j.graph.steps.take k) x = (y, none) →
      j.performFrom step (j.plan step y.made) .empty (y.note .started step) =
        j.conclude step stage s.tally → Turn j x s
  | behind {k : ℕ} {step : Step} {y : Tally σ} {fault : Fault} : j.step? k = some step →
      s.working = [] → s.started = List.range (k + 1) → s.done = List.range k →
      s.failure = some (k, fault) → j.interpret (j.graph.steps.take k) x = (y, none) →
      j.takeStep step y = (s.tally, some fault) → Turn j x s

/-- What a turn is depends on neither the phase nor requests to stop. -/
theorem Turn.congr (h : Turn j x s) (hworking : t.working = s.working) (hstarted : t.started = s.started)
    (hdone : t.done = s.done) (hfailure : t.failure = s.failure) (htally : t.tally = s.tally) :
    Turn j x t := by
  cases h with
  | between hidle hs hd hf hx =>
    exact .between (hworking.trans hidle) (hstarted.trans hs) (hdone.trans hd) (hfailure.trans hf)
      (hx.trans (by rw [htally]))
  | within hstep hat hs hd hf hx hy =>
    exact .within hstep (hworking.trans hat) (hstarted.trans hs) (hdone.trans hd) (hfailure.trans hf) hx
      (hy.trans (by rw [htally]))
  | behind hstep hidle hs hd hf hx hy =>
    exact .behind hstep (hworking.trans hidle) (hstarted.trans hs) (hdone.trans hd) (hfailure.trans hf) hx
      (hy.trans (by rw [htally]))

/-- **The next step to start is the next of the list.** -/
theorem nextReady?_eq (hg : j.graph.Sound) {k place : ℕ} (hstarted : s.started = List.range k)
    (hdone : s.done = List.range k) (h : j.nextReady? s = some place) : place = k := by
  have hfresh := (step?_of_nextReady? h).1
  obtain ⟨-, hplace, hfirst⟩ := List.find?_range_eq_some.1 h
  rw [hstarted, List.mem_range] at hfresh
  rw [List.mem_range] at hplace
  by_contra hne
  have hlt : k < place := by omega
  have hready : j.isReady s k = true := isReady_of_forall_lt hg (Nat.lt_trans hlt hplace)
    (by simp [hstarted]) fun q hq => by simpa [hdone] using hq
  simpa [hready] using hfirst k hlt

theorem unassign_singleton (k : ℕ) (stage : Stage) : unassign k [(k, stage)] = [] := by
  simp [unassign]

theorem take_succ_of_step? {k : ℕ} (h : j.step? k = some step) :
    j.graph.steps.take (k + 1) = j.graph.steps.take k ++ [step] := by
  have hstep : j.graph.steps[k]? = some step := h
  rw [List.take_add_one, hstep, Option.toList_some]

theorem eq_of_lookup_singleton {k place : ℕ} {stage stage' : Stage} (hat : s.working = [(k, stage)])
    (h : s.working.lookup place = some stage') : place = k ∧ stage' = stage := by
  rw [hat, List.lookup_cons, List.lookup_nil] at h
  split at h
  · rename_i heq
    exact ⟨by simpa using heq, (Option.some.inj h).symm⟩
  · exact absurd h.symm (Option.some_ne_none _)

/-- A step that has a worker is the only one under way, and all in front of it are done. -/
theorem Turn.within_of_lookup (h : Turn j x s) {place : ℕ} {step : Step} {stage : Stage}
    (hstep : j.step? place = some step) (hstage : s.working.lookup place = some stage) :
    s.working = [(place, stage)] ∧ s.started = List.range (place + 1) ∧ s.done = List.range place ∧
      s.failure = none ∧ ∃ y, j.interpret (j.graph.steps.take place) x = (y, none) ∧
        j.performFrom step (j.plan step y.made) .empty (y.note .started step) =
          j.conclude step stage s.tally := by
  cases h with
  | between hidle _ _ _ _ =>
    rw [hidle] at hstage
    exact absurd hstage.symm (Option.some_ne_none _)
  | within hstep' hat hs hd hf hx hy =>
    obtain ⟨rfl, rfl⟩ := eq_of_lookup_singleton hat hstage
    obtain rfl := Option.some.inj (hstep.symm.trans hstep')
    exact ⟨hat, hs, hd, hf, _, hx, hy⟩
  | behind _ hidle _ _ _ _ _ =>
    rw [hidle] at hstage
    exact absurd hstage.symm (Option.some_ne_none _)

/-- What is started and what is done are beginnings of the list, and differ by one step at most. -/
theorem Turn.ranges (h : Turn j x s) : ∃ m n, m ≤ n ∧ n ≤ m + 1 ∧ s.started = List.range n ∧
    s.done = List.range m := by
  cases h with
  | @between k _ hs hd _ _ => exact ⟨k, k, Nat.le_refl k, Nat.le_succ k, hs, hd⟩
  | @within k _ _ _ _ _ hs hd _ _ _ => exact ⟨k, k + 1, Nat.le_succ k, Nat.le_refl _, hs, hd⟩
  | @behind k _ _ _ _ _ hs hd _ _ _ => exact ⟨k, k + 1, Nat.le_succ k, Nat.le_refl _, hs, hd⟩

/-- Where no worker runs and nothing has failed, all that is started is done. -/
theorem Turn.done_eq_started (h : Turn j x s) (hbusy : s.busy = []) (hfailure : s.failure = none) :
    s.done = s.started := by
  cases h with
  | between _ hs hd _ _ => rw [hs, hd]
  | within _ hat _ _ _ _ _ =>
    rw [State.busy, hat] at hbusy
    exact absurd hbusy (List.cons_ne_nil _ _)
  | behind _ _ _ _ hf _ _ => exact absurd (hf.symm.trans hfailure) (Option.some_ne_none _)

/-- **Every move keeps to the order of the list.** -/
theorem Turn.act (hg : j.graph.Sound) (hone : j.bound ≤ 1) (h : Turn j x s) {c : Choice}
    (hact : j.act s c = some t) : Turn j x t := by
  cases move_of_act hact with
  | ask => exact h.congr rfl rfl rfl rfl rfl
  | wait _ _ _ _ => exact h.congr rfl rfl rfl rfl rfl
  | close _ _ => exact h.congr rfl rfl rfl rfl rfl
  | @start place step _ hfailure _ hfree hready hstep =>
    -- the only worker is free, so the run is between two steps
    have hidle : s.working = [] := List.length_eq_zero_iff.1 (by omega)
    cases h with
    | between _ hs hd hf hx =>
      obtain rfl := nextReady?_eq hg hs hd hready
      have hworking : (j.start s place step).working =
          [(place, .reading .empty (j.plan step s.made))] := congrArg (· ++ [_]) hidle
      have hstarted : (j.start s place step).started = List.range (place + 1) := by
        rw [List.range_succ, ← hs]
        rfl
      exact .within hstep hworking hstarted hd hf hx rfl
    | within _ hat _ _ _ _ _ =>
      rw [hidle] at hat
      exact absurd hat.symm (List.cons_ne_nil _ _)
    | behind _ _ _ _ hf _ _ => exact absurd (hf.symm.trans hfailure) (Option.some_ne_none _)
  | @work place step stage stage' rest hstep hstage hadvance =>
    obtain ⟨hat, hs, hd, hf, y, hx, hy⟩ := h.within_of_lookup hstep hstage
    have hwork : j.work s place step stage = some (rest.moveTo place stage') := by
      unfold Setup.act at hact
      simpa only [hstep, hstage] using hact
    obtain ⟨next, hworking, hconclude⟩ := conclude_work hwork
    have hkeeps := hadvance.keeps (mem_busy_of_lookup hstage)
    rw [hat, assign, if_pos rfl] at hworking
    exact .within hstep hworking (hkeeps.started.trans hs) (hkeeps.done.trans hd)
      (hkeeps.failure.trans hf) hx (hy.trans hconclude)
  | @finish place step data _ hstep hstage =>
    -- the worker has ended, so what is left of the step is what it ended with
    obtain ⟨hat, hs, hd, hf, y, hx, hy⟩ := h.within_of_lookup hstep hstage
    have htaken : j.interpret (j.graph.steps.take (place + 1)) x = j.takeStep step y := by
      rw [take_succ_of_step? hstep, interpret_concat step hx]
    have hidle : unassign place s.working = [] := hat ▸ unassign_singleton place _
    have hdone : s.done ++ [place] = List.range (place + 1) := by rw [List.range_succ, hd]
    exact .between hidle hs hdone hf (htaken.trans (congrArg (j.enter step) hy))
  | @fail place step fault _ hstep hstage =>
    obtain ⟨hat, hs, hd, hf, y, hx, hy⟩ := h.within_of_lookup hstep hstage
    have hfail : Setup.fail { s with phase := .filling, working := unassign place s.working } place step
        fault = { State.note { s with phase := .filling, working := unassign place s.working } .failed step
          with failure := some (place, fault) } := by
      simp only [fail_eq, hf]
    have hidle : unassign place s.working = [] := hat ▸ unassign_singleton place _
    rw [hfail]
    exact .behind hstep hidle hs hd rfl hx (congrArg (j.enter step) hy)

/-- **A run with one worker takes one step after the other.** -/
theorem turn_of_reaches (hg : j.graph.Sound) (hone : j.bound ≤ 1) {store : σ} {stopAsked : Bool}
    (h : j.Reaches (.initial store stopAsked) s) : Turn j (.initial store) s := by
  induction h with
  | refl => exact .between (k := 0) rfl rfl rfl rfl rfl
  | step c _ hact ih => exact ih.act hg hone hact

end Provenance.Run
