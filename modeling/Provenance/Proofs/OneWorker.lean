import Provenance.Proofs.Endings
import Provenance.Proofs.Run.Sequence

/-!
# Runs with one worker

With one worker a run of a graph that a client builds is the same as taking the steps of the graph one after
the other (`Setup.interpret`), whatever storage, site and policy it has and however its turns are taken.
Steps begin and are picked up in the order of execution, and none begins before the one in front of it was
picked up.  At the end the run has come to what the steps come to: to all of them if it ends well; to all of
them, which is to the first that fails, if it ends with a fault; and to the first few if it was cancelled
(`Sequenced`).

A request to stop leaves the step that runs alone.  Those that had begun when it came in are the ones that
are completed in the end, unless the last of them fails.
-/

namespace Provenance.Run

universe u w

variable {σ : Type u} {j : Setup σ} {s t : State σ} {choices : List Choice}
  {history : List (ℕ × Deed)} {store : σ} {stopAsked : Bool}

/-- What a run with one worker may come to, after what happened in it.

* It ends well: all steps were taken, and it has come to what they come to.
* It ends with the fault of a step.  The steps in front of it were taken and have not failed, and it was taken
  with what they came to and has failed.
* It was cancelled: a request to stop came in, and the steps that were taken are not all there are. -/
inductive Sequenced (j : Setup σ) (store : σ) (history : List (ℕ × Deed)) (t : State σ) :
    Except Fault Report → Prop
  | well : begun history = List.range j.graph.steps.length →
      finished history = List.range j.graph.steps.length →
      j.interpret j.graph.steps (.initial store) = (t.tally, none) →
      t.completed.map (·.step) = j.graph.steps.map (·.id) →
      Sequenced j store history t
        (.ok ⟨j.site, t.completed, t.written, t.trace, t.made.filter fun e => j.graph.isSink e.1⟩)
  | failed {p : ℕ} {step : Step} {y : Tally σ} {fault : Fault} : j.step? p = some step →
      begun history = List.range (p + 1) → finished history = List.range p →
      j.interpret (j.graph.steps.take p) (.initial store) = (y, none) →
      j.takeStep step y = (t.tally, some fault) →
      j.interpret j.graph.steps (.initial store) = (t.tally, some fault) →
      t.completed.map (·.step) = (j.graph.steps.take p).map (·.id) →
      Sequenced j store history t (.error fault)
  | cancelled {n : ℕ} : n < j.graph.steps.length → t.stopAsked = true →
      begun history = List.range n → finished history = List.range n →
      j.interpret (j.graph.steps.take n) (.initial store) = (t.tally, none) →
      t.completed.map (·.step) = (j.graph.steps.take n).map (·.id) →
      Sequenced j store history t (.error (.cancelled ((j.graph.steps.take n).map Step.label)))

/-- The first steps of a graph, place by place. -/
theorem filterMap_step?_range (j : Setup σ) (n : ℕ) :
    (List.range n).filterMap j.step? = j.graph.steps.take n := by
  induction n with
  | zero => rfl
  | succ n ih =>
    have hlast : [n].filterMap j.step? = j.graph.steps[n]?.toList := by
      show [n].filterMap (fun n => j.graph.steps[n]?) = _
      cases h : j.graph.steps[n]? <;> simp [h]
    rw [List.range_succ, List.filterMap_append, ih, hlast, List.take_add_one]

/-- What is completed is a beginning of the graph. -/
theorem Booked.map_step_completed_range (h : Booked j history s) {n : ℕ} (hdone : s.done = List.range n) :
    s.completed.map (·.step) = (j.graph.steps.take n).map (·.id) := by
  rw [h.map_step_completed, hdone, filterMap_step?_range]

/-- No more steps start than there are. -/
theorem Scheduled.le_length (h : Scheduled j s) {n : ℕ} (hstarted : s.started = List.range n) :
    n ≤ j.graph.steps.length := by
  by_contra hlt
  have hmem : j.graph.steps.length ∈ s.started := by
    rw [hstarted, List.mem_range]
    omega
  exact Nat.lt_irrefl _ (h.placed _ hmem)

/-- **A run with one worker that is over has come to what its steps come to.** -/
theorem Turn.sequenced (hg : j.graph.Sound) (hs : Scheduled j t) (hb : Booked j history t)
    (h : Turn j (.initial store) t) (hover : t.phase = .over) :
    Sequenced j store history t (j.outcome t) := by
  have hbusy := hs.ended hover
  cases h with
  | @between n _ hstarted hdone hfailure hx =>
    have hcompleted := hb.map_step_completed_range hdone
    have hlength : t.completed.length = n := by rw [hs.completed, hdone, List.length_range]
    have hbegun := hb.begun.trans hstarted
    have hfinished := hb.finished.trans hdone
    rcases Nat.lt_or_eq_of_le (hs.le_length hstarted) with hlt | rfl
    · have hstopped : t.stopped = true := by
        refine (hs.stopped_or_mem_done hg hover hfailure).resolve_right fun hall => ?_
        have hmem := hall n hlt
        rw [hdone, List.mem_range] at hmem
        exact Nat.lt_irrefl n hmem
      have houtcome : j.outcome t = .error (.cancelled (t.completed.map Completed.label)) :=
        outcome_eq_error_iff.2 (.inr ⟨hfailure, hstopped, hlength ▸ hlt, rfl⟩)
      rw [houtcome, hb.map_label_completed, hfinished, filterMap_step?_range]
      exact .cancelled hlt (hb.stopped hstopped) hbegun hfinished hx hcompleted
    · rw [List.take_length] at hx hcompleted
      rw [outcome_eq_ok_iff.2 ⟨hfailure, fun _ => hlength.ge, rfl⟩]
      exact .well hbegun hfinished hx hcompleted
  | within _ hat _ _ _ _ _ =>
    rw [State.busy, hat] at hbusy
    exact absurd hbusy (List.cons_ne_nil _ _)
  | @behind p step y fault hstep _ hstarted hdone hfailure hx hy =>
    have houtcome : j.outcome t = .error fault := outcome_eq_error_iff.2 (.inl ⟨p, hfailure⟩)
    have hall : j.interpret j.graph.steps (.initial store) = (t.tally, some fault) := by
      have htaken : j.interpret (j.graph.steps.take (p + 1)) (.initial store) = (t.tally, some fault) := by
        rw [take_succ_of_step? hstep, interpret_concat step hx, hy]
      have hmore := interpret_append_of_failed (j.graph.steps.drop (p + 1)) htaken
      rwa [List.take_append_drop] at hmore
    rw [houtcome]
    exact .failed hstep (hb.begun.trans hstarted) (hb.finished.trans hdone) hx hy hall
      (hb.map_step_completed_range hdone)

/-- **A run with one worker is the sequence of its steps.**  It goes on until it is over.  At all times the
steps that have begun are the first of the graph, in the order of execution, and all of them were picked up
with data, but for the last one, which may still run or have failed.  Once a request to stop has come in,
nothing begins any more, and those that have begun are what is completed in the end if none fails.  What
the run has come to when it is over, storage, trace and report, is what the steps come to that are taken
one after the other. -/
theorem sequenced_of_way {α : Type w} {s : Session α} (hs : s.Reachable) {terminals : List Asset}
    (hterminals : ∀ a ∈ terminals, s.Offers (.asset a)) {g : Graph}
    (hbuilt : s.graph terminals = .ok g) {σ : Type u} {j : Setup σ} (hj : j.graph = g)
    (hone : j.workers ≤ 1) {store : σ} {stopAsked : Bool} {choices : List Choice}
    {history : List (ℕ × Deed)} {t : State σ}
    (hway : Way j (.initial store stopAsked) choices history t) :
    (t.phase ≠ .over → ∃ c u, c ≠ .ask ∧ j.act t c = some u) ∧
    (t.busy.length ≤ 1 ∧ ∃ m n, n ≤ g.steps.length ∧ m ≤ n ∧ n ≤ m + 1 ∧
      begun history = List.range n ∧ finished history = List.range m ∧
      t.completed.map (·.step) = (g.steps.take m).map (·.id)) ∧
    (t.stopAsked = true → ∀ choices' history' u, Way j t choices' history' u →
      begun history' = [] ∧ (u.phase = .over → u.failure = none →
        u.completed.map (·.step) = ((begun history).filterMap j.step?).map (·.id))) ∧
    (t.phase = .over → Sequenced j store history t (j.outcome t)) := by
  subst hj
  have hg := Session.sound_of_graph hs hterminals hbuilt
  have hbound : j.bound ≤ 1 := Nat.max_le.2 ⟨hone, Nat.le_refl 1⟩
  obtain ⟨hscheduled, hbooked⟩ := booked_of_way hway
  have hturn := turn_of_reaches hg hbound hway.reaches
  refine ⟨hscheduled.exists_act, ⟨hscheduled.bounded.trans hbound, ?_⟩, ?_,
    hturn.sequenced hg hscheduled hbooked⟩
  · obtain ⟨m, n, hle, hle', hstarted, hdone⟩ := hturn.ranges
    exact ⟨m, n, hscheduled.le_length hstarted, hle, hle', hbooked.begun.trans hstarted,
      hbooked.finished.trans hdone, hbooked.map_step_completed_range hdone⟩
  · intro hasked choices' history' u hmore
    have hnone : begun history' = [] := begun_eq_nil_of_way (.inr hasked) hmore
    refine ⟨hnone, fun hover hfailure => ?_⟩
    obtain ⟨hscheduled', hbooked'⟩ := booked_of_way (hway.trans hmore)
    have hdone := (turn_of_reaches hg hbound (hway.trans hmore).reaches).done_eq_started
      (hscheduled'.ended hover) hfailure
    have hbegun := hbooked'.begun
    rw [begun_append, hnone, List.append_nil] at hbegun
    rw [hbooked'.map_step_completed, hdone, hbegun]

/-- The end of a run in which the raw data is not there. -/
def Late.starved (j : Setup Memory) : State Memory := j.drive j.moves (.initial Memory.empty false)

theorem Late.alone_starved (target : Target) :
    (Late.starved (Late.alone target)).phase = .over ∧
      (Late.alone target).outcome (Late.starved (Late.alone target)) = .error (.storage "lake" .absent) :=
  ⟨by cbv, by cbv⟩

/-- Of the two steps of a graph the newer one, from which the older one reads, is taken first.  A run can
take both, or be stopped between them, or end where the newer one finds nothing to read. -/
theorem sequenced_of_way_late : (Late.alone .default).workers ≤ 1 ∧
    (∃ choices history r, Way (Late.alone .default) (.initial Late.memory false) choices history
        (Late.ended (Late.alone .default)) ∧
      (Late.ended (Late.alone .default)).phase = .over ∧
      (Late.alone .default).outcome (Late.ended (Late.alone .default)) = .ok r ∧
      Sequenced (Late.alone .default) Late.memory history (Late.ended (Late.alone .default)) (.ok r)) ∧
    (∃ choices history, Way (Late.alone .default) (.initial Late.memory false) choices history
        (Late.stopped (Late.alone .default)) ∧
      (Late.stopped (Late.alone .default)).phase = .over ∧
      Sequenced (Late.alone .default) Late.memory history (Late.stopped (Late.alone .default))
        (.error (.cancelled ["extend -> clean"]))) ∧
    ∃ choices history, Way (Late.alone .default) (.initial Memory.empty false) choices history
        (Late.starved (Late.alone .default)) ∧
      (Late.starved (Late.alone .default)).phase = .over ∧
      Sequenced (Late.alone .default) Memory.empty history (Late.starved (Late.alone .default))
        (.error (.storage "lake" .absent)) := by
  have hend : ∀ {store : Memory} {choices : List Choice} {history : List (ℕ × Deed)} {t : State Memory},
      Way (Late.alone .default) (.initial store false) choices history t → t.phase = .over →
        Sequenced (Late.alone .default) store history t ((Late.alone .default).outcome t) := by
    intro store choices history t hway
    obtain ⟨-, -, -, hend⟩ := sequenced_of_way (Session.Late.reachable (t := Late.extend .default) rfl)
      (Session.Late.offers _) (Session.Late.graph_eq _) rfl (Nat.le_refl 1) hway
    exact hend
  refine ⟨Nat.le_refl 1, ?_, ?_, ?_⟩
  · obtain ⟨hover, r, hr⟩ := Late.alone_ends_well .default
    obtain ⟨choices, history, hway⟩ := exists_way (Late.reaches_ended (Late.alone .default))
    exact ⟨choices, history, r, hway, hover, hr, hr ▸ hend hway hover⟩
  · obtain ⟨hover, hstopped⟩ := Late.alone_stopped .default
    obtain ⟨choices, history, hway⟩ := exists_way (Late.reaches_stopped (Late.alone .default))
    exact ⟨choices, history, hway, hover, hstopped ▸ hend hway hover⟩
  · obtain ⟨hover, hfault⟩ := Late.alone_starved .default
    obtain ⟨choices, history, hway⟩ := exists_way
      ((Late.alone .default).reaches_drive (Late.alone .default).moves (.refl (.initial Memory.empty false)))
    exact ⟨choices, history, hway, hover, hfault ▸ hend hway hover⟩

end Provenance.Run
