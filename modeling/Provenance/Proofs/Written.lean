import Provenance.Proofs.Extension
import Provenance.Proofs.Runs

/-!
# The order of what was written

A report lists the written addresses.  A worker notes in the trace that its data was written, and ends after
that; the address gets into the list when the scheduler picks the worker up.  So the list follows the order
in which steps finish, and that need not be the order in which they are written: a worker that has noted may
wait while another one notes and is picked up.

Both orders are read off the trace in one way (`Setup.marked`).  Where a trace tells the whole story of
every step (`Whole`) they have the same addresses, each once, and they are the same if and only if of any two
steps the one that is written first finishes first (`Whole.marked_eq_iff`).  With one worker they are the
same, since two steps are never under way at once (`Whole.precedes_finished`).

* `written_of_reaches`: at all times the list follows the order in which steps finished.
* `written_of_outcome`: **what a run that ends well reports as written, and when it is in the order of
  writing.**
* `exists_swapped`: two workers, and a report in the other order.
-/

namespace Provenance

universe u w

namespace Run

variable {σ : Type u} {j : Setup σ} {s t : State σ} {trace : List Entry} {mark : Step → Event}

/-! ## 1.  What stands before what in a trace -/

/-- The addresses that a trace tells to be written, in this order. -/
def noted (trace : List Entry) : List Address := trace.filterMap (·.event.address?)

/-- What an entry is about. -/
def Entry.moment (e : Entry) : StepId × Event := (e.step, e.event)

/-- A trace tells one thing before another. -/
def Precedes (trace : List Entry) (x y : StepId × Event) : Prop :=
  ∃ before after, trace = before ++ after ∧ (∃ d ∈ before, d.moment = x) ∧ ∃ e ∈ after, e.moment = y

theorem mem_told_iff {id : StepId} {event : Event} :
    event ∈ told trace id ↔ ∃ e ∈ trace, e.moment = (id, event) := by
  simp [told, Entry.moment, and_assoc]

theorem told_append (before after : List Entry) (id : StepId) :
    told (before ++ after) id = told before id ++ told after id := by
  unfold told
  rw [List.filter_append, List.map_append]

theorem Event.address?_eq_some_iff {event : Event} {a : Address} :
    event.address? = some a ↔ event = .written a := by
  cases event <;> simp [Event.address?]

/-- Two elements are picked in this order if and only if the list falls into a part with one and a part with
the other. -/
theorem pair_sublist_filterMap_iff {α β : Type*} {f : α → Option β} {l : List α} {a b : β} :
    [a, b].Sublist (l.filterMap f) ↔
      ∃ before after, l = before ++ after ∧ (∃ d ∈ before, f d = some a) ∧ ∃ e ∈ after, f e = some b := by
  rw [List.cons_sublist_iff]
  constructor
  · rintro ⟨_, _, hsplit, ha, hb⟩
    obtain ⟨before, after, rfl, rfl, rfl⟩ := List.filterMap_eq_append_iff.1 hsplit
    exact ⟨before, after, rfl, List.mem_filterMap.1 ha,
      List.mem_filterMap.1 (List.singleton_sublist.1 hb)⟩
  · rintro ⟨before, after, rfl, ha, hb⟩
    exact ⟨_, _, List.filterMap_append, List.mem_filterMap.2 ha,
      List.singleton_sublist.2 (List.mem_filterMap.2 hb)⟩

/-- Of two elements of a list without repetitions only one comes first. -/
theorem eq_of_pairs_sublist {α : Type*} {l : List α} (hl : l.Nodup) {a b : α} (h : [a, b].Sublist l)
    (h' : [b, a].Sublist l) : a = b := by
  exfalso
  obtain ⟨before, after, rfl, ha, hb⟩ := List.cons_sublist_iff.1 h
  have hdisjoint := List.disjoint_of_nodup_append hl
  obtain ⟨l₁, l₂, hpair, hbefore, hafter⟩ := List.sublist_append_iff.1 h'
  cases l₁ with
  | nil =>
    obtain rfl : [b, a] = l₂ := hpair
    exact hdisjoint ha (hafter.subset (.tail _ (.head _)))
  | cons c l₁ =>
    obtain ⟨rfl, -⟩ := List.cons.inj hpair
    exact hdisjoint (hbefore.subset (.head _)) (List.singleton_sublist.1 hb)

/-! ## 2.  Outputs in the order of a mark -/

/-- The output of the step that an entry is about, if it has to be written and the entry is the mark. -/
def Setup.marked? (j : Setup σ) (mark : Step → Event) (e : Entry) : Option Address :=
  ((j.graph.step? e.step).filter fun step => j.mustWrite step && e.event == mark step).map
    (·.output.address)

/-- The outputs that have to be written, in the order in which a trace comes to a mark of their steps. -/
def Setup.marked (j : Setup σ) (mark : Step → Event) (trace : List Entry) : List Address :=
  trace.filterMap (j.marked? mark)

/-- A trace that is about the steps of a graph and tells the whole story of each. -/
structure Whole (j : Setup σ) (trace : List Entry) : Prop where
  named : ∀ e ∈ trace, ∃ step ∈ j.graph.steps, e.step = step.id
  stories : ∀ step ∈ j.graph.steps, told trace step.id = j.story step

theorem mem_story_iff {step : Step} {event : Event} : event ∈ j.story step ↔
    event = .started ∨ (j.mustWrite step = true ∧ event = .written step.output.address) ∨
      event = .finished := by
  unfold Setup.story Setup.writes
  by_cases h : j.mustWrite step = true <;> simp [h]

theorem nodup_story (j : Setup σ) (step : Step) : (j.story step).Nodup := by
  unfold Setup.story Setup.writes
  by_cases h : j.mustWrite step = true <;> simp [h]

theorem story_of_mustWrite {step : Step} (h : j.mustWrite step = true) :
    j.story step = [.started, .written step.output.address, .finished] := by
  unfold Setup.story Setup.writes
  rw [if_pos h]
  rfl

theorem marked?_eq_some_iff (hg : j.graph.Sound) {e : Entry} {a : Address} :
    j.marked? mark e = some a ↔ ∃ step ∈ j.graph.steps,
      j.mustWrite step = true ∧ step.output.address = a ∧ e.moment = (step.id, mark step) := by
  unfold Setup.marked? Entry.moment
  simp only [Option.map_eq_some_iff, Option.filter_eq_some_iff, hg.step?_eq_some_iff, Bool.and_eq_true,
    beq_iff_eq, Prod.mk.injEq]
  constructor
  · rintro ⟨step, ⟨⟨hstep, hid⟩, hwrite, hevent⟩, rfl⟩
    exact ⟨step, hstep, hwrite, rfl, hid.symm, hevent⟩
  · rintro ⟨step, hstep, hwrite, rfl, hid, hevent⟩
    exact ⟨step, ⟨⟨hstep, hid.symm⟩, hwrite, hevent⟩, rfl⟩

/-- One output stands before another if and only if the mark of its step does. -/
theorem pair_sublist_marked_iff (hg : j.graph.Sound) {a b : Address} :
    [a, b].Sublist (j.marked mark trace) ↔
      ∃ p ∈ j.graph.steps, ∃ q ∈ j.graph.steps, j.mustWrite p = true ∧ j.mustWrite q = true ∧
        p.output.address = a ∧ q.output.address = b ∧
          Precedes trace (p.id, mark p) (q.id, mark q) := by
  unfold Setup.marked
  rw [pair_sublist_filterMap_iff]
  constructor
  · rintro ⟨before, after, rfl, ⟨d, hd, hmarked⟩, e, he, hmarked'⟩
    obtain ⟨p, hp, hwrite, rfl, hmoment⟩ := (marked?_eq_some_iff hg).1 hmarked
    obtain ⟨q, hq, hwrite', rfl, hmoment'⟩ := (marked?_eq_some_iff hg).1 hmarked'
    exact ⟨p, hp, q, hq, hwrite, hwrite', rfl, rfl, before, after, rfl, ⟨d, hd, hmoment⟩, e, he, hmoment'⟩
  · rintro ⟨p, hp, q, hq, hwrite, hwrite', rfl, rfl, before, after, rfl, ⟨d, hd, hmoment⟩, e, he, hmoment'⟩
    exact ⟨before, after, rfl, ⟨d, hd, (marked?_eq_some_iff hg).2 ⟨p, hp, hwrite, rfl, hmoment⟩⟩,
      e, he, (marked?_eq_some_iff hg).2 ⟨q, hq, hwrite', rfl, hmoment'⟩⟩

namespace Whole

variable (h : Whole j trace)

include h

/-- The story of a step falls into what is told before and after a point of the trace. -/
theorem story_eq {before after : List Entry} (hsplit : trace = before ++ after) {step : Step}
    (hstep : step ∈ j.graph.steps) : told before step.id ++ told after step.id = j.story step := by
  rw [← told_append, ← hsplit, h.stories step hstep]

/-- Nothing is told before itself. -/
theorem not_precedes_self {step : Step} (hstep : step ∈ j.graph.steps) (event : Event) :
    ¬ Precedes trace (step.id, event) (step.id, event) := by
  rintro ⟨before, after, hsplit, hbefore, hafter⟩
  have hnodup := nodup_story j step
  rw [← h.story_eq hsplit hstep] at hnodup
  exact List.disjoint_of_nodup_append hnodup (mem_told_iff.2 hbefore) (mem_told_iff.2 hafter)

/-- What is told to be written are the outputs that have to be, in the order of their writing. -/
theorem noted_eq (hg : j.graph.Sound) :
    noted trace = j.marked (fun step => .written step.output.address) trace := by
  refine List.filterMap_congr fun e he => Option.ext fun a => ?_
  rw [Event.address?_eq_some_iff, marked?_eq_some_iff hg]
  constructor
  · intro hevent
    obtain ⟨step, hstep, hid⟩ := h.named e he
    have hmem : Event.written a ∈ j.story step := by
      rw [← h.stories step hstep]
      exact mem_told_iff.2 ⟨e, he, Prod.ext hid hevent⟩
    obtain ⟨hwrite, heq⟩ := by simpa [mem_story_iff] using hmem
    exact ⟨step, hstep, hwrite, heq.symm, Prod.ext hid (hevent.trans (congrArg _ heq))⟩
  · rintro ⟨step, -, -, rfl, hmoment⟩
    exact (Prod.mk.inj hmoment).2

variable (hmark : ∀ step, j.mustWrite step = true → mark step ∈ j.story step)

include hmark in
/-- Every output that has to be written is marked. -/
theorem mem_marked_iff (hg : j.graph.Sound) {a : Address} : a ∈ j.marked mark trace ↔
    ∃ step ∈ j.graph.steps, j.mustWrite step = true ∧ step.output.address = a := by
  unfold Setup.marked
  rw [List.mem_filterMap]
  constructor
  · rintro ⟨e, -, hmarked⟩
    obtain ⟨step, hstep, hwrite, hout, -⟩ := (marked?_eq_some_iff hg).1 hmarked
    exact ⟨step, hstep, hwrite, hout⟩
  · rintro ⟨step, hstep, hwrite, hout⟩
    have htold := hmark step hwrite
    rw [← h.stories step hstep] at htold
    obtain ⟨e, he, hmoment⟩ := mem_told_iff.1 htold
    exact ⟨e, he, (marked?_eq_some_iff hg).2 ⟨step, hstep, hwrite, hout, hmoment⟩⟩

/-- No output is marked twice. -/
theorem nodup_marked (hg : j.graph.Sound) : (j.marked mark trace).Nodup := by
  rw [List.nodup_iff_sublist]
  intro a hpair
  obtain ⟨p, hp, q, hq, -, -, hout, hout', hprecedes⟩ := (pair_sublist_marked_iff hg).1 hpair
  obtain rfl := hg.eq_of_output_eq hp hq (hout.trans hout'.symm)
  exact h.not_precedes_self hp _ hprecedes

include hmark in
/-- **Two marks give the same order if and only if one follows the other** from step to step. -/
theorem marked_eq_iff (hg : j.graph.Sound) {mark' : Step → Event}
    (hmark' : ∀ step, j.mustWrite step = true → mark' step ∈ j.story step) :
    j.marked mark trace = j.marked mark' trace ↔
      ∀ p ∈ j.graph.steps, ∀ q ∈ j.graph.steps, j.mustWrite p = true → j.mustWrite q = true →
        Precedes trace (p.id, mark' p) (q.id, mark' q) → Precedes trace (p.id, mark p) (q.id, mark q) := by
  constructor
  · intro heq p hp q hq hwrite hwrite' hprecedes
    have hpair : [p.output.address, q.output.address].Sublist (j.marked mark trace) := by
      rw [heq]
      exact (pair_sublist_marked_iff hg).2 ⟨p, hp, q, hq, hwrite, hwrite', rfl, rfl, hprecedes⟩
    obtain ⟨p', hp', q', hq', -, -, hout, hout', hprecedes'⟩ := (pair_sublist_marked_iff hg).1 hpair
    obtain rfl := hg.eq_of_output_eq hp' hp hout
    obtain rfl := hg.eq_of_output_eq hq' hq hout'
    exact hprecedes'
  · intro hfollows
    have hnodup : (j.marked mark trace).Nodup := h.nodup_marked hg
    have hperm : (j.marked mark trace).Perm (j.marked mark' trace) :=
      (List.perm_ext_iff_of_nodup hnodup (h.nodup_marked hg)).2 fun a =>
        (h.mem_marked_iff hmark hg).trans (h.mem_marked_iff hmark' hg).symm
    -- both lists are in the order of the first one
    have hpairs : (j.marked mark trace).Pairwise fun a b => [a, b].Sublist (j.marked mark trace) :=
      List.pairwise_iff_forall_sublist.2 id
    have hpairs' : (j.marked mark' trace).Pairwise fun a b => [a, b].Sublist (j.marked mark trace) := by
      rw [List.pairwise_iff_forall_sublist]
      intro a b hpair
      obtain ⟨p, hp, q, hq, hwrite, hwrite', hout, hout', hprecedes⟩ := (pair_sublist_marked_iff hg).1 hpair
      exact (pair_sublist_marked_iff hg).2
        ⟨p, hp, q, hq, hwrite, hwrite', hout, hout', hfollows p hp q hq hwrite hwrite' hprecedes⟩
    exact hperm.eq_of_pairwise (fun a b _ _ => eq_of_pairs_sublist hnodup) hpairs hpairs'

/-- Whatever is told of a step, its start is told first. -/
theorem started_mem_told {before after : List Entry} (hsplit : trace = before ++ after) {step : Step}
    (hstep : step ∈ j.graph.steps) {event : Event} (hevent : event ∈ told before step.id) :
    .started ∈ told before step.id := by
  have hstory := h.story_eq hsplit hstep
  cases htold : told before step.id with
  | nil =>
    rw [htold] at hevent
    exact absurd hevent List.not_mem_nil
  | cons first rest =>
    rw [htold, List.cons_append] at hstory
    rw [(List.cons.inj hstory).1]
    exact .head _

/-- When a step is written it has started, and it finishes later. -/
theorem told_around_written {before after : List Entry} {e : Entry} (hsplit : trace = before ++ e :: after)
    {step : Step} (hstep : step ∈ j.graph.steps) (hwrite : j.mustWrite step = true)
    (hmoment : e.moment = (step.id, .written step.output.address)) :
    told before step.id = [.started] ∧ told after step.id = [.finished] := by
  obtain ⟨hid, hevent⟩ := Prod.mk.inj hmoment
  have hnow : told (e :: after) step.id = .written step.output.address :: told after step.id := by
    simp [told, hid, hevent]
  have hstory : [Event.started] ++ .written step.output.address :: [.finished] =
      told before step.id ++ .written step.output.address :: told after step.id := by
    rw [← hnow, h.story_eq hsplit hstep, story_of_mustWrite hwrite]
    rfl
  obtain ⟨hbefore, -, hafter⟩ := (List.append_cons_inj_of_notMem (by simp) (by simp)).1 hstory
  exact ⟨hbefore.symm, hafter.symm⟩

/-- Where at most one step is under way at any time, the step that is written first finishes first. -/
theorem precedes_finished
    (hone : ∀ before after, trace = before ++ after → (unfinished j.graph before).length ≤ 1) {p q : Step}
    (hp : p ∈ j.graph.steps) (hq : q ∈ j.graph.steps) (hwrite : j.mustWrite q = true)
    (hprecedes : Precedes trace (p.id, .written p.output.address) (q.id, .written q.output.address)) :
    Precedes trace (p.id, .finished) (q.id, .finished) := by
  obtain ⟨before, _, hsplit, hbefore, e, he, hmoment⟩ := hprecedes
  obtain ⟨middle, after, rfl⟩ := List.append_of_mem he
  rw [← List.append_assoc] at hsplit
  obtain ⟨hearly, hlater⟩ := h.told_around_written hsplit hq hwrite hmoment
  have hwritten : Event.written p.output.address ∈ told (before ++ middle) p.id := by
    rw [told_append]
    exact List.mem_append_left _ (mem_told_iff.2 hbefore)
  have hstarted := h.started_mem_told hsplit hp hwritten
  have hfinished : Event.finished ∈ told (before ++ middle) p.id := by
    -- otherwise both are under way
    by_contra hunfinished
    have hne : p ≠ q := by
      rintro rfl
      rw [hearly] at hwritten
      exact absurd hwritten (by simp)
    have hboth : [p, q] ⊆ unfinished j.graph (before ++ middle) := by
      simp [unfinished, hp, hq, hstarted, hunfinished, hearly]
    have hnodup : [p, q].Nodup := by simpa using hne
    exact absurd ((List.subperm_of_subset hnodup hboth).length_le.trans (hone _ _ hsplit)) (by simp)
  have hfinished' : Event.finished ∈ told (e :: after) q.id := by
    rw [← List.singleton_append, told_append, hlater]
    exact List.mem_append_right _ (.head _)
  exact ⟨before ++ middle, e :: after, hsplit, mem_told_iff.1 hfinished, mem_told_iff.1 hfinished'⟩

end Whole

/-! ## 3.  Runs -/

/-- A note adds the output of its step, if it has to be written and the note is the mark. -/
theorem marked_note (hg : j.graph.Sound) {step : Step} (hstep : step ∈ j.graph.steps) (event : Event) :
    j.marked mark (s.note event step).trace = j.marked mark s.trace ++
      if j.mustWrite step = true ∧ event = mark step then [step.output.address] else [] := by
  have hfound : j.graph.step? step.id = some step := (hg.step?_eq_some_iff).2 ⟨hstep, rfl⟩
  have hlast : j.marked? mark ⟨s.trace.length, event, step.id, step.task.name⟩ =
      if j.mustWrite step = true ∧ event = mark step then some step.output.address else none := by
    unfold Setup.marked?
    dsimp only
    rw [hfound, Option.filter_some]
    by_cases hmark : j.mustWrite step = true ∧ event = mark step
    · rw [if_pos hmark, if_pos (by simpa using hmark), Option.map_some]
    · rw [if_neg hmark, if_neg (by simpa using hmark), Option.map_none]
  unfold Setup.marked State.note
  rw [List.filterMap_append, List.filterMap_cons, hlast]
  by_cases hmark : j.mustWrite step = true ∧ event = mark step
  · rw [if_pos hmark, if_pos hmark]
    rfl
  · rw [if_neg hmark, if_neg hmark]
    rfl

/-- A note that is not the mark adds nothing. -/
theorem marked_note_of_ne (hg : j.graph.Sound) {step : Step} (hstep : step ∈ j.graph.steps) {event : Event}
    (hevent : event ≠ mark step) : j.marked mark (s.note event step).trace = j.marked mark s.trace := by
  rw [marked_note hg hstep, if_neg fun h => hevent h.2, List.append_nil]

/-- **Every move keeps the list of written addresses in the order in which steps finish.** -/
theorem written_eq_of_move (hg : j.graph.Sound) {c : Choice} (hmove : Move j s c t)
    (hs : s.written = j.marked (fun _ => .finished) s.trace) :
    t.written = j.marked (fun _ => .finished) t.trace := by
  cases hmove with
  | ask => exact hs
  | wait _ _ _ _ => exact hs
  | start _ _ _ _ _ hstep =>
    have hmem := List.mem_of_getElem? hstep
    exact hs.trans (marked_note_of_ne hg hmem (by simp)).symm
  | close _ _ => exact hs
  | work hstep _ hadvance =>
    have hmem := List.mem_of_getElem? hstep
    cases hadvance with
    | noted => exact hs.trans (marked_note_of_ne hg hmem (by simp)).symm
    | _ => exact hs
  | @finish place step data _ hstep _ =>
    have hmem := List.mem_of_getElem? hstep
    refine Eq.trans ?_ (marked_note hg hmem .finished).symm
    show (if j.mustWrite step then s.written ++ [step.output.address] else s.written) = _
    rw [hs]
    by_cases hwrite : j.mustWrite step = true <;> simp [hwrite]
  | @fail place step fault _ hstep _ =>
    have hmem := List.mem_of_getElem? hstep
    obtain ⟨failure, -, heq⟩ := failure_fail
      { s with phase := .filling, working := unassign place s.working } place step fault
    rw [heq]
    exact hs.trans (marked_note_of_ne hg hmem (by simp)).symm

/-- **At all times the written addresses are listed in the order in which their steps finished.** -/
theorem written_of_reaches (hg : j.graph.Sound) {store : σ} {stopAsked : Bool}
    (h : j.Reaches (.initial store stopAsked) s) : s.written = j.marked (fun _ => .finished) s.trace :=
  h.invariant (P := fun s => s.written = j.marked (fun _ => .finished) s.trace)
    (fun _ _ _ hs hmove => written_eq_of_move hg hmove hs) rfl

/-- **What a run that ends well reports as written** are the outputs that have to be, each once, in the order
in which their steps finished; the trace tells the same addresses to be written.  They are told in the order
of the report if and only if of any two of them the one that is told first is the one whose step finishes
first, and with one worker they are. -/
theorem written_of_outcome {α : Type w} {s : Session α} (hs : s.Reachable) {terminals : List Asset}
    (hterminals : ∀ a ∈ terminals, s.Offers (.asset a)) {g : Graph}
    (hbuilt : s.graph terminals = .ok g) {σ : Type u} {j : Setup σ} (hj : j.graph = g) {store : σ}
    {stopAsked : Bool} {t : State σ} (hreached : j.Reaches (.initial store stopAsked) t)
    (hover : t.phase = .over) {r : Report} (hr : j.outcome t = .ok r) :
    r.written = j.marked (fun _ => .finished) r.trace ∧ (noted r.trace).Perm r.written ∧
    r.written.Nodup ∧
    (∀ a, a ∈ r.written ↔ ∃ step ∈ g.steps, j.mustWrite step = true ∧ step.output.address = a) ∧
    (r.written = noted r.trace ↔
      ∀ p ∈ g.steps, ∀ q ∈ g.steps, j.mustWrite p = true → j.mustWrite q = true →
        Precedes r.trace (p.id, .written p.output.address) (q.id, .written q.output.address) →
          Precedes r.trace (p.id, .finished) (q.id, .finished)) ∧
    (j.bound = 1 → r.written = noted r.trace) := by
  obtain ⟨-, hstories, hnamed, -, hbounded⟩ := stories_of_outcome hs hterminals hbuilt hj hreached hover hr
  subst hj
  have hg := Session.sound_of_graph hs hterminals hbuilt
  have hwhole : Whole j r.trace := ⟨fun e he => by
    obtain ⟨-, step, hstep, hid, -⟩ := hnamed e he
    exact ⟨step, hstep, hid⟩, hstories⟩
  have hwritten : r.written = j.marked (fun _ => .finished) r.trace := by
    rw [report_of_outcome hr]
    exact written_of_reaches hg hreached
  have hnoted := hwhole.noted_eq hg
  have hfinished : ∀ step, j.mustWrite step = true → Event.finished ∈ j.story step :=
    fun step _ => mem_story_iff.2 (.inr (.inr rfl))
  have hstored : ∀ step, j.mustWrite step = true → Event.written step.output.address ∈ j.story step :=
    fun step hwrite => mem_story_iff.2 (.inr (.inl ⟨hwrite, rfl⟩))
  have hnodup : r.written.Nodup := hwritten ▸ hwhole.nodup_marked hg
  have hmem : ∀ a, a ∈ r.written ↔
      ∃ step ∈ j.graph.steps, j.mustWrite step = true ∧ step.output.address = a := by
    intro a
    rw [hwritten]
    exact hwhole.mem_marked_iff hfinished hg
  have hperm : (noted r.trace).Perm r.written := by
    rw [List.perm_ext_iff_of_nodup (hnoted ▸ hwhole.nodup_marked hg) hnodup]
    intro a
    rw [hnoted, hwhole.mem_marked_iff hstored hg, hmem]
  have hiff := hwhole.marked_eq_iff hfinished hg hstored
  rw [← hwritten, ← hnoted] at hiff
  refine ⟨hwritten, hperm, hnodup, hmem, hiff, fun hone => hiff.2 ?_⟩
  intro p hp q hq _ hwrite hprecedes
  exact hwhole.precedes_finished (fun before after hsplit => hone ▸ hbounded before after hsplit) hp hq hwrite
    hprecedes

/-- With one worker the report lists what the trace tells. -/
theorem written_of_outcome_late : ∃ r,
    (Late.alone .default).outcome (Late.ended (Late.alone .default)) = .ok r ∧
      r.written = noted r.trace ∧ Session.Late.report.address ∈ r.written := by
  obtain ⟨hover, r, hr⟩ := Late.alone_ends_well .default
  have hwrite : ∀ target, (Late.alone target).mustWrite (Session.Late.older (Late.extend target)) = true := by
    intro target
    cbv
  obtain ⟨-, -, -, hmem, -, hone⟩ := written_of_outcome
    (Session.Late.reachable (t := Late.extend .default) rfl) (Session.Late.offers _)
    (Session.Late.graph_eq _) rfl (Late.reaches_ended (Late.alone .default)) hover hr
  exact ⟨r, hr, hone rfl, (hmem _).2 ⟨_, .tail _ (.head _), hwrite _, rfl⟩⟩

/-! ## 4.  Two workers -/

/-- Goes the way of some choices; those that are not open are passed over. -/
def Setup.follow (j : Setup σ) (s : State σ) (choices : List Choice) : State σ :=
  choices.foldl (fun s c => (j.act s c).getD s) s

theorem Setup.reaches_follow (j : Setup σ) {s t : State σ} (choices : List Choice) (h : j.Reaches s t) :
    j.Reaches s (j.follow t choices) := by
  unfold Setup.follow
  induction choices generalizing t with
  | nil => exact h
  | cons c choices ih =>
    refine ih ?_
    dsimp only
    cases hact : j.act t c with
    | none => exact h
    | some next => exact h.step c hact

namespace Branch

/-- Two workers in the process, for the report and the counts. -/
def setup (target : Target) : Setup Memory :=
  ⟨Session.Branch.larger (Late.extend target), .process, .boundaries, 2, [], Memory.store⟩

/-- The counts are noted first.  Their worker has ended, but the one of the report, which started later, is
picked up before it. -/
def turns : List Choice :=
  [.schedule, .schedule, .schedule, .work 0, .work 0, .work 1, .work 1, .work 1, .work 1, .collect 0,
    .schedule, .schedule, .work 2, .work 2, .work 2, .work 2, .collect 2, .schedule, .collect 1, .schedule,
    .schedule]

/-- The end of the run. -/
def ended (target : Target) : State Memory := (setup target).follow (.initial Late.memory false) turns

theorem ends_well (target : Target) :
    (ended target).phase = .over ∧ ∃ r, (setup target).outcome (ended target) = .ok r :=
  ⟨by cbv, exists_outcome (by cbv) (by cbv)⟩

/-- The counts are told first and reported last. -/
theorem orders {target : Target} {r : Report} (hr : (setup target).outcome (ended target) = .ok r) :
    noted r.trace = [Session.Branch.stats.address, Session.Branch.report.address] ∧
      r.written = [Session.Branch.report.address, Session.Branch.stats.address] := by
  rw [report_of_outcome hr]
  exact ⟨by cbv, by cbv⟩

end Branch

/-- **The list of what was written need not be in the order of writing.**  The trace tells that the counts
were written before the report, and the run ends well with the report in front of the counts. -/
theorem exists_swapped : ∃ r,
    (Session.Branch.session (Late.extend .default)).Reachable ∧
    (Session.Branch.session (Late.extend .default)).graph
      ([Session.Branch.report.producedBy 3] ++ [Session.Branch.stats.producedBy 2]) =
        .ok (Branch.setup .default).graph ∧
    (Branch.setup .default).Reaches (.initial Late.memory false) (Branch.ended .default) ∧
    (Branch.ended .default).phase = .over ∧
    (Branch.setup .default).outcome (Branch.ended .default) = .ok r ∧
    noted r.trace = [Session.Branch.stats.address, Session.Branch.report.address] ∧
    r.written = [Session.Branch.report.address, Session.Branch.stats.address] ∧
    r.written ≠ noted r.trace := by
  obtain ⟨hover, r, hr⟩ := Branch.ends_well .default
  obtain ⟨hnoted, hwritten⟩ := Branch.orders hr
  have hne : r.written ≠ noted r.trace := by
    rw [hnoted, hwritten]
    decide
  exact ⟨r, Session.Branch.reachable rfl, Session.Branch.larger_eq _,
    (Branch.setup .default).reaches_follow Branch.turns (.refl _), hover, hr, hnoted, hwritten, hne⟩

end Run

end Provenance
