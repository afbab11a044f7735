import Provenance.Proofs.Run.Schedule

/-!
# What a trace tells

The entries of a trace that are about one step tell its story (`told`): it started, its data was written
if it had to be, and it finished.  `Traced` says how much of the story has been told, for a step that a
worker is at and for one that is done, and that a step starts only after the whole story of every step
that it reads from.  Every move keeps this (`Traced.move`).

How many steps have started and not finished (`unfinished`) can be read off the trace.  They are those
that a worker is at, so there are never more of them than may run at once (`Bounded.move`).
-/

namespace Provenance.Run

universe u

variable {σ : Type u} {j : Setup σ} {s t : State σ}

/-- What a trace tells of a step. -/
def told (trace : List Entry) (id : StepId) : List Event :=
  (trace.filter (·.step == id)).map (·.event)

/-- The steps that have started and not finished. -/
def unfinished (g : Graph) (trace : List Entry) : List Step :=
  g.steps.filter fun step => .started ∈ told trace step.id ∧ .finished ∉ told trace step.id

/-- The writing of the data of a step, if it has to be written. -/
def Setup.writes (j : Setup σ) (step : Step) : List Event :=
  if j.mustWrite step then [.written step.output.address] else []

/-- The story of a step that is done. -/
def Setup.story (j : Setup σ) (step : Step) : List Event :=
  .started :: (j.writes step ++ [.finished])

/-- What is told of a step whose worker is at a stage. -/
def Setup.toldAt (j : Setup σ) (step : Step) : Stage → List Event
  | .ended (.ok _) => .started :: j.writes step
  | _ => [.started]

theorem told_append_singleton (trace : List Entry) (e : Entry) (id : StepId) :
    told (trace ++ [e]) id = told trace id ++ if e.step = id then [e.event] else [] := by
  unfold told
  rw [List.filter_append, List.map_append]
  by_cases h : e.step = id <;> simp [h]

theorem told_note_self (s : State σ) (event : Event) (step : Step) :
    told (s.note event step).trace step.id = told s.trace step.id ++ [event] := by
  unfold State.note
  rw [told_append_singleton, if_pos rfl]

/-- How much of the story of each step the trace tells. -/
structure Traced (j : Setup σ) (s : State σ) : Prop where
  seq : s.trace.map (·.seq) = List.range s.trace.length
  named : ∀ e ∈ s.trace, ∃ p ∈ s.started, ∃ step, j.step? p = some step ∧ e.step = step.id ∧
    e.task = step.task.name
  working : ∀ p stage step, s.working.lookup p = some stage → j.step? p = some step →
    told s.trace step.id = j.toldAt step stage
  stages : ∀ p data step,
    s.working.lookup p = some (.writing data) ∨ s.working.lookup p = some (.noting data) →
      j.step? p = some step → j.mustWrite step = true
  done : ∀ p ∈ s.done, ∀ step, j.step? p = some step → told s.trace step.id = j.story step
  unfailed : s.failure = none → ∀ e ∈ s.trace, e.event ≠ .failed
  ordered : ∀ before e after, s.trace = before ++ e :: after → e.event = .started →
    ∀ step ∈ j.graph.steps, step.id = e.step →
      ∀ p ∈ j.graph.steps, step.ReadsFrom p.output.address → told before p.id = j.story p

theorem traced_initial (j : Setup σ) (store : σ) (stopAsked : Bool) :
    Traced j (.initial store stopAsked) := by
  constructor <;> simp [State.initial]

/-! ## Notes -/

theorem seq_note (h : s.trace.map (·.seq) = List.range s.trace.length) (event : Event) (step : Step) :
    (s.note event step).trace.map (·.seq) = List.range (s.note event step).trace.length := by
  unfold State.note
  rw [List.map_append, h, List.length_append, List.length_singleton, List.range_succ]
  rfl

theorem unfailed_note (h : ∀ e ∈ s.trace, e.event ≠ .failed) {event : Event} (hevent : event ≠ .failed)
    (step : Step) : ∀ e ∈ (s.note event step).trace, e.event ≠ .failed := by
  intro e he
  rcases List.mem_append.1 he with he | he
  · exact h e he
  · rw [List.mem_singleton.1 he]
    exact hevent

/-- Where a trace is taken apart at an entry, the entry is the last note or one that was there. -/
theorem split_note {event : Event} {step : Step} {before after : List Entry} {e : Entry}
    (h : (s.note event step).trace = before ++ e :: after) :
    (before = s.trace ∧ e = ⟨s.trace.length, event, step.id, step.task.name⟩) ∨
      ∃ init, s.trace = before ++ e :: init := by
  rcases List.eq_nil_or_concat after with rfl | ⟨init, last, rfl⟩
  · obtain ⟨hbefore, he⟩ := List.append_singleton_inj.1 h
    exact .inl ⟨hbefore.symm, he.symm⟩
  · rw [List.concat_eq_append, ← List.cons_append, ← List.append_assoc] at h
    exact .inr ⟨init, (List.append_singleton_inj.1 h).1⟩

/-- A note names its step. -/
theorem Traced.named_note (h : Traced j s) {place : ℕ} {step : Step} {started : List ℕ}
    (hsub : ∀ p ∈ s.started, p ∈ started) (hplace : place ∈ started)
    (hstep : j.step? place = some step) (event : Event) :
    ∀ e ∈ (s.note event step).trace, ∃ p ∈ started, ∃ step, j.step? p = some step ∧
      e.step = step.id ∧ e.task = step.task.name := by
  intro e he
  rcases List.mem_append.1 he with he | he
  · obtain ⟨p, hp, hnamed⟩ := h.named e he
    exact ⟨p, hsub p hp, hnamed⟩
  · rw [List.mem_singleton.1 he]
    exact ⟨place, hplace, step, hstep, rfl, rfl⟩

section

variable (hg : j.graph.Sound)

include hg

/-- A note about one step tells nothing of the others. -/
theorem told_note_of_ne {p q : ℕ} {step other : Step} (hp : j.step? p = some step)
    (hq : j.step? q = some other) (hne : p ≠ q) (event : Event) :
    told (s.note event other).trace step.id = told s.trace step.id := by
  unfold State.note
  rw [told_append_singleton, if_neg, List.append_nil]
  exact fun h => hne (place_eq_of_id_eq hg hp hq h.symm)

/-- Nothing is told of a step that has not started. -/
theorem Traced.told_of_fresh (h : Traced j s) {p : ℕ} {step : Step} (hp : j.step? p = some step)
    (hfresh : p ∉ s.started) : told s.trace step.id = [] := by
  unfold told
  rw [List.map_eq_nil_iff, List.filter_eq_nil_iff]
  intro e he heq
  obtain ⟨q, hq, other, hother, hid, -⟩ := h.named e he
  have hpq := place_eq_of_id_eq hg hp hother (by rw [← hid, ← of_decide_eq_true heq])
  exact hfresh (hpq ▸ hq)

omit hg in
/-- A note that is no start keeps the order. -/
theorem Traced.ordered_note (h : Traced j s) {event : Event} (hevent : event ≠ .started) (step : Step) :
    ∀ before e after, (s.note event step).trace = before ++ e :: after → e.event = .started →
      ∀ step ∈ j.graph.steps, step.id = e.step →
        ∀ p ∈ j.graph.steps, step.ReadsFrom p.output.address → told before p.id = j.story p := by
  intro before e after hsplit he
  rcases split_note hsplit with ⟨-, rfl⟩ | ⟨init, hsplit⟩
  · exact absurd he hevent
  · exact h.ordered before e init hsplit he

/-! ## Moves -/

theorem Traced.start (h : Traced j s) (hs : Scheduled j s) {place : ℕ} {step : Step}
    (hready : j.nextReady? s = some place) (hstep : j.step? place = some step) :
    Traced j (j.start s place step) := by
  obtain ⟨hfresh, hawaits⟩ := ready_of_nextReady? hready hstep
  constructor
  case seq => exact seq_note h.seq _ _
  case named =>
    exact h.named_note (fun p hp => List.mem_append_left _ hp) (by simp) hstep _
  case working =>
    intro p stage other hstage hother
    rcases hs.of_lookup_start hready hstep hother hstage with ⟨rfl, rfl, rfl⟩ | ⟨hp, hstage⟩
    · exact (told_note_self s _ _).trans (by rw [h.told_of_fresh hg hstep hfresh]; rfl)
    · exact (told_note_of_ne hg hother hstep hp _).trans (h.working p stage other hstage hother)
  case stages =>
    intro p data other hstage hother
    have hbefore : ∀ stage, (∀ got rest, stage ≠ .reading got rest) →
        (j.start s place step).working.lookup p = some stage → s.working.lookup p = some stage := by
      intro stage hne hstage
      rcases hs.of_lookup_start hready hstep hother hstage with ⟨-, -, rfl⟩ | ⟨-, hstage⟩
      · exact absurd rfl (hne _ _)
      · exact hstage
    exact h.stages p data other (hstage.imp (hbefore _ (by simp)) (hbefore _ (by simp))) hother
  case done =>
    intro p hp other hother
    have hne : p ≠ place := fun heq => hfresh (heq ▸ hs.doneStarted p hp)
    exact (told_note_of_ne hg hother hstep hne _).trans (h.done p hp other hother)
  case unfailed => exact fun hfailure => unfailed_note (h.unfailed hfailure) (by simp) step
  case ordered =>
    intro before e after hsplit he other hother hid p hp hreads
    rcases split_note hsplit with ⟨rfl, rfl⟩ | ⟨init, hsplit⟩
    · -- the entry is the one that is made now, and what the step waits for is done
      obtain rfl := hg.eq_of_id_eq hother (List.mem_of_getElem? hstep) hid
      obtain ⟨q, hq⟩ := List.mem_iff_getElem?.1 hp
      exact h.done q (hawaits q ((mem_awaits_iff hg hstep).2 ⟨p, hq, hreads⟩)) p hq
    · exact h.ordered before e init hsplit he other hother hid p hp hreads

omit hg in
/-- A worker tells what its next stage says: nothing new, or that it has written. -/
theorem Advance.told {step : Step} {stage stage' : Stage} {rest : State σ}
    (h : Advance j step s stage stage' rest) :
    rest.trace = s.trace ∧ j.toldAt step stage' = j.toldAt step stage ∨
      ∃ data, stage = .noting data ∧ stage' = .ended (.ok data) ∧
        rest = s.note (.written step.output.address) step := by
  cases h with
  | computed log stopAsked _ hdata =>
    refine .inl ⟨rfl, ?_⟩
    split
    · rfl
    · rename_i hwrite
      unfold Setup.toldAt Setup.writes
      dsimp only
      rw [if_neg hwrite]
  | noted => exact .inr ⟨_, rfl, rfl, by rw [j.address_handle]⟩
  | memory => exact .inl ⟨rfl, rfl⟩
  | stored _ => exact .inl ⟨rfl, rfl⟩
  | missed _ => exact .inl ⟨rfl, rfl⟩
  | aborted _ _ _ _ => exact .inl ⟨rfl, rfl⟩
  | wrote _ => exact .inl ⟨rfl, rfl⟩
  | refused _ => exact .inl ⟨rfl, rfl⟩

omit hg in
/-- Only data that has to be written is written. -/
theorem Advance.mustWrite {step : Step} {stage stage' : Stage} {rest : State σ} {data : Dataset}
    (h : Advance j step s stage stage' rest)
    (hstage : ∀ data, stage = .writing data ∨ stage = .noting data → j.mustWrite step = true)
    (hstage' : stage' = .writing data ∨ stage' = .noting data) : j.mustWrite step = true := by
  cases h with
  | computed log stopAsked _ hdata =>
    by_cases hwrite : j.mustWrite step = true
    · exact hwrite
    · rw [if_neg hwrite] at hstage'
      exact absurd hstage' (by simp)
  | wrote _ => exact hstage _ (.inl rfl)
  | _ => exact absurd hstage' (by simp)

/-- After a worker has moved, the trace tells what its next stage says, and nothing new of the others. -/
theorem Traced.told_work (h : Traced j s) {place : ℕ} {step : Step} {stage stage' : Stage}
    {rest : State σ} (hstep : j.step? place = some step)
    (hstage : s.working.lookup place = some stage) (hadvance : Advance j step s stage stage' rest) :
    told rest.trace step.id = j.toldAt step stage' ∧ ∀ p other, j.step? p = some other → p ≠ place →
      told rest.trace other.id = told s.trace other.id := by
  have htold := h.working place stage step hstage hstep
  rcases hadvance.told with ⟨htrace, hsame⟩ | ⟨data, rfl, rfl, rfl⟩
  · rw [htrace, htold, hsame]
    exact ⟨rfl, fun p other hp hne => rfl⟩
  · refine ⟨?_, fun p other hp hne => told_note_of_ne hg hp hstep hne _⟩
    have hwrite := h.stages place data step (.inr hstage) hstep
    rw [told_note_self, htold]
    unfold Setup.toldAt Setup.writes
    dsimp only
    rw [if_pos hwrite]
    rfl

omit hg in
/-- After a worker has moved, still only data that has to be written is written. -/
theorem Traced.stages_work (h : Traced j s) {place : ℕ} {step : Step} {stage stage' : Stage}
    {rest : State σ} (hstep : j.step? place = some step)
    (hstage : s.working.lookup place = some stage) (hadvance : Advance j step s stage stage' rest) :
    ∀ p data other, (rest.moveTo place stage').working.lookup p = some (.writing data) ∨
      (rest.moveTo place stage').working.lookup p = some (.noting data) →
        j.step? p = some other → j.mustWrite other = true := by
  intro p data other hother hp
  have hmust : ∀ found, found = .writing data ∨ found = .noting data →
      (rest.moveTo place stage').working.lookup p = some found → j.mustWrite other = true := by
    intro found hkind hfound
    rcases hadvance.of_lookup hstep hp hfound with ⟨rfl, rfl, rfl⟩ | ⟨-, hfound⟩
    · refine hadvance.mustWrite (fun data hdata => h.stages p data other ?_ hp) hkind
      rcases hdata with rfl | rfl
      · exact .inl hstage
      · exact .inr hstage
    · rcases hkind with rfl | rfl
      · exact h.stages p data other (.inl hfound) hp
      · exact h.stages p data other (.inr hfound) hp
  exact hother.elim (hmust _ (.inl rfl)) (hmust _ (.inr rfl))

theorem Traced.work (h : Traced j s) (hs : Scheduled j s) {place : ℕ} {step : Step}
    {stage stage' : Stage} {rest : State σ} (hstep : j.step? place = some step)
    (hstage : s.working.lookup place = some stage) (hadvance : Advance j step s stage stage' rest) :
    Traced j (rest.moveTo place stage') := by
  have hbusy := mem_busy_of_lookup hstage
  have hkeeps := hadvance.keeps hbusy
  obtain ⟨hself, hothers⟩ := h.told_work hg hstep hstage hadvance
  have htrace : (rest.moveTo place stage').trace = s.trace ∨
      (rest.moveTo place stage').trace = (s.note (.written step.output.address) step).trace := by
    rcases hadvance.told with ⟨htrace, -⟩ | ⟨-, -, -, rfl⟩
    · exact .inl htrace
    · exact .inr rfl
  constructor
  case seq =>
    rcases htrace with htrace | htrace
    · rw [htrace]
      exact h.seq
    · rw [htrace]
      exact seq_note h.seq _ step
  case named =>
    rw [hkeeps.started]
    rcases htrace with htrace | htrace
    · rw [htrace]
      exact h.named
    · rw [htrace]
      exact h.named_note (fun _ hp => hp) (hs.busyStarted place hbusy) hstep _
  case working =>
    intro p found other hfound hp
    rcases hadvance.of_lookup hstep hp hfound with ⟨rfl, rfl, rfl⟩ | ⟨hne, hfound⟩
    · exact hself
    · exact (hothers p other hp hne).trans (h.working p found other hfound hp)
  case stages => exact h.stages_work hstep hstage hadvance
  case done =>
    intro p hp other hother
    rw [hkeeps.done] at hp
    have hne : p ≠ place := fun heq => hs.apart place hbusy (heq ▸ hp)
    exact (hothers p other hother hne).trans (h.done p hp other hother)
  case unfailed =>
    rw [hkeeps.failure]
    intro hfailure
    rcases htrace with htrace | htrace
    · rw [htrace]
      exact h.unfailed hfailure
    · rw [htrace]
      exact unfailed_note (h.unfailed hfailure) (by simp) step
  case ordered =>
    rcases htrace with htrace | htrace
    · rw [htrace]
      exact h.ordered
    · rw [htrace]
      exact h.ordered_note (by simp) step

/-- A worker is picked up.  What is told of the steps that are done, and that nothing has failed, depends
on what it was picked up with. -/
theorem Traced.collect (h : Traced j s) {place : ℕ} {step : Step} {event : Event}
    (hstep : j.step? place = some step) (hplace : place ∈ s.started) (hevent : event ≠ .started)
    (htrace : t.trace = (s.note event step).trace) (hworking : t.working = unassign place s.working)
    (hstarted : t.started = s.started)
    (hdone : ∀ p ∈ t.done, ∀ other, j.step? p = some other → told t.trace other.id = j.story other)
    (hunfailed : t.failure = none → ∀ e ∈ t.trace, e.event ≠ .failed) : Traced j t := by
  have hlookup : ∀ p stage, t.working.lookup p = some stage →
      p ≠ place ∧ s.working.lookup p = some stage := by
    intro p stage hstage
    rw [hworking] at hstage
    exact lookup_unassign_eq_some_iff.1 hstage
  constructor
  case seq => rw [htrace]; exact seq_note h.seq event step
  case named =>
    rw [htrace, hstarted]
    exact h.named_note (fun _ hp => hp) hplace hstep event
  case working =>
    intro p stage other hstage hother
    obtain ⟨hne, hstage⟩ := hlookup p stage hstage
    rw [htrace, told_note_of_ne hg hother hstep hne]
    exact h.working p stage other hstage hother
  case stages =>
    intro p data other hstage hother
    exact h.stages p data other
      (hstage.imp (fun h => (hlookup p _ h).2) (fun h => (hlookup p _ h).2)) hother
  case done => exact hdone
  case unfailed => exact hunfailed
  case ordered => rw [htrace]; exact h.ordered_note hevent step

theorem Traced.finish (h : Traced j s) (hs : Scheduled j s) {place : ℕ} {step : Step} {data : Dataset}
    (hstep : j.step? place = some step)
    (hstage : s.working.lookup place = some (.ended (.ok data))) :
    Traced j (j.finish { s with phase := .filling, working := unassign place s.working }
      place step data) := by
  have hevent : Event.finished ≠ .started := by simp
  refine h.collect hg hstep (hs.busyStarted place (mem_busy_of_lookup hstage)) hevent rfl rfl rfl
    (fun p hp other hother => ?_) fun hfailure => unfailed_note (h.unfailed hfailure) (by simp) step
  by_cases hne : p = place
  · subst hne
    rw [hstep] at hother
    obtain rfl := Option.some.inj hother
    refine (told_note_self s _ _).trans ?_
    rw [h.working p _ step hstage hstep]
    rfl
  · have hp : p ∈ s.done := (List.mem_append.1 hp).resolve_right (by simpa using hne)
    exact (told_note_of_ne hg hother hstep hne _).trans (h.done p hp other hother)

theorem Traced.fail (h : Traced j s) (hs : Scheduled j s) {place : ℕ} {step : Step} {fault : Fault}
    (hstep : j.step? place = some step) (hplace : place ∈ s.busy) :
    Traced j (Setup.fail { s with phase := .filling, working := unassign place s.working }
      place step fault) := by
  obtain ⟨failure, hfailure, heq⟩ := failure_fail
    { s with phase := .filling, working := unassign place s.working } place step fault
  rw [heq]
  have hevent : Event.failed ≠ .started := by simp
  refine h.collect hg hstep (hs.busyStarted place hplace) hevent rfl rfl rfl
    (fun p hp other hother => ?_) fun hnone => absurd hnone hfailure
  have hne : p ≠ place := fun heq => hs.apart place hplace (heq ▸ hp)
  exact (told_note_of_ne hg hother hstep hne _).trans (h.done p hp other hother)

/-- **Every move keeps the stories straight.** -/
theorem Traced.move {c : Choice} (h : Traced j s) (hs : Scheduled j s) (hmove : Move j s c t) :
    Traced j t := by
  cases hmove with
  | ask => exact ⟨h.seq, h.named, h.working, h.stages, h.done, h.unfailed, h.ordered⟩
  | wait _ _ _ _ => exact ⟨h.seq, h.named, h.working, h.stages, h.done, h.unfailed, h.ordered⟩
  | start _ _ _ _ hready hstep => exact h.start hg hs hready hstep
  | close _ _ => exact ⟨h.seq, h.named, h.working, h.stages, h.done, h.unfailed, h.ordered⟩
  | work hstep hstage hadvance => exact h.work hg hs hstep hstage hadvance
  | finish _ hstep hstage => exact h.finish hg hs hstep hstage
  | fail _ hstep hstage => exact h.fail hg hs hstep (mem_busy_of_lookup hstage)

/-! ## How many steps are unfinished -/

/-- The steps that have started and not finished are those that a worker is at. -/
theorem Traced.length_unfinished_le (h : Traced j s) (hs : Scheduled j s) (hfailure : s.failure = none) :
    (unfinished j.graph s.trace).length ≤ j.bound := by
  have hnodup : ((unfinished j.graph s.trace).map (·.id)).Nodup :=
    hg.ordered.ids.sublist (List.filter_sublist.map _)
  have hsub : (unfinished j.graph s.trace).map (·.id) ⊆
      s.busy.filterMap fun p => (j.step? p).map (·.id) := by
    intro id hid
    obtain ⟨step, hstep, rfl⟩ := List.mem_map.1 hid
    obtain ⟨hmem, hopen⟩ := List.mem_filter.1 hstep
    obtain ⟨hstarted, hunfinished⟩ := of_decide_eq_true hopen
    obtain ⟨p, hp⟩ := List.mem_iff_getElem?.1 hmem
    have hp' : j.step? p = some step := hp
    have hmem : p ∈ s.started := by
      by_contra hfresh
      rw [h.told_of_fresh hg hp' hfresh] at hstarted
      exact absurd hstarted (by simp)
    refine List.mem_filterMap.2 ⟨p, ?_, by rw [hp']; rfl⟩
    rcases hs.accounted hfailure p hmem with hbusy | hdone
    · exact hbusy
    · rw [h.done p hdone step hp'] at hunfinished
      exact absurd (by simp [Setup.story]) hunfinished
  calc (unfinished j.graph s.trace).length
      = ((unfinished j.graph s.trace).map (·.id)).length := (List.length_map _).symm
    _ ≤ (s.busy.filterMap fun p => (j.step? p).map (·.id)).length :=
        (List.subperm_of_subset hnodup hsub).length_le
    _ ≤ s.busy.length := List.length_filterMap_le _ _
    _ ≤ j.bound := hs.bounded

end

/-- At no time were more steps unfinished than may run at once, unless one has failed. -/
def Bounded (j : Setup σ) (s : State σ) : Prop :=
  s.failure = none → ∀ before after, s.trace = before ++ after →
    (unfinished j.graph before).length ≤ j.bound

/-- A move adds at most one entry to the trace, and takes no failure back. -/
theorem trace_of_move {c : Choice} (hmove : Move j s c t) :
    (t.trace = s.trace ∨ ∃ e, t.trace = s.trace ++ [e]) ∧ (t.failure = none → s.failure = none) := by
  cases hmove with
  | ask => exact ⟨.inl rfl, id⟩
  | wait _ _ _ _ => exact ⟨.inl rfl, id⟩
  | start _ _ _ _ _ _ => exact ⟨.inr ⟨_, rfl⟩, id⟩
  | close _ _ => exact ⟨.inl rfl, id⟩
  | work _ _ hadvance =>
    cases hadvance with
    | noted => exact ⟨.inr ⟨_, rfl⟩, id⟩
    | _ => exact ⟨.inl rfl, id⟩
  | finish _ _ _ => exact ⟨.inr ⟨_, rfl⟩, id⟩
  | @fail place step fault _ _ _ =>
    obtain ⟨failure, hfailure, heq⟩ := failure_fail
      { s with phase := .filling, working := unassign place s.working } place step fault
    rw [heq]
    exact ⟨.inr ⟨_, rfl⟩, fun hnone => absurd hnone hfailure⟩

theorem Bounded.move {c : Choice} (hg : j.graph.Sound) (h : Bounded j s) (ht : Traced j t)
    (hs : Scheduled j t) (hmove : Move j s c t) : Bounded j t := by
  obtain ⟨htrace, hunfailed⟩ := trace_of_move hmove
  intro hfailure before after hsplit
  have hold : ∀ before after, s.trace = before ++ after →
      (unfinished j.graph before).length ≤ j.bound := h (hunfailed hfailure)
  rcases List.eq_nil_or_concat after with rfl | ⟨init, last, rfl⟩
  · rw [← List.append_nil before, ← hsplit]
    exact ht.length_unfinished_le hg hs hfailure
  · rcases htrace with hsame | ⟨e, hmore⟩
    · exact hold before _ (hsame.symm.trans hsplit)
    · rw [hmore, List.concat_eq_append, ← List.append_assoc] at hsplit
      exact hold before init (List.append_singleton_inj.1 hsplit).1

/-- **Whatever choices are made, the trace tells every story in order.** -/
theorem traced_of_reaches (hg : j.graph.Sound) {store : σ} {stopAsked : Bool}
    (h : j.Reaches (.initial store stopAsked) s) : Traced j s ∧ Bounded j s := by
  have hall : Scheduled j s ∧ Traced j s ∧ Bounded j s := by
    refine h.invariant (P := fun s => Scheduled j s ∧ Traced j s ∧ Bounded j s) ?_
      ⟨scheduled_initial j store stopAsked, traced_initial j store stopAsked, ?_⟩
    · rintro s c t ⟨hs, htraced, hbounded⟩ hmove
      have hs' := hs.move hmove
      have htraced' := htraced.move hg hs hmove
      exact ⟨hs', htraced', hbounded.move hg htraced' hs' hmove⟩
    · intro _ before after hsplit
      obtain ⟨rfl, -⟩ := List.append_eq_nil_iff.1 hsplit.symm
      simp [unfinished, told]
  exact hall.2

end Provenance.Run
