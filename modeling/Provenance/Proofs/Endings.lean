import Provenance.Proofs.Run.Booking
import Provenance.Proofs.Run.Progress
import Provenance.Proofs.Runs

/-!
# How runs end

A run of a graph that a client builds comes to an end whatever choices are made, and what it comes to is
told by its history alone (`Verdict`): it ends well with every step completed, with the fault of the
first step in the order of execution that has failed, or cancelled with a step left.  A fault counts more
than a request to stop, and a request that is seen after the last step has been completed counts nothing.

`verdict_of_way` puts this together with what holds all the time: the books follow the history
(`booked_of_way`), the run is never stuck (`Scheduled.exists_act`) and bounded
(`countP_le_moves_of_way`), what is completed is closed under what it was made from, and nothing begins
after a failure or a request to stop.
-/

namespace Provenance.Run

universe u w

variable {σ : Type u} {j : Setup σ} {s t : State σ} {choices : List Choice}
  {history : List (ℕ × Deed)}

/-! ## 1.  What a run comes to -/

/-- What a run may come to, after what happened in it.

* It ends well: nothing has failed, and each step of the graph has begun and was completed once.
* It ends with the fault of a step that has failed, and no step before that one has failed.
* It was cancelled: nothing has failed, a request to stop came in and was seen, and a step is left.  Then
  the labels of the completed steps are told, in the order in which they were completed. -/
inductive Verdict (j : Setup σ) (history : List (ℕ × Deed)) (s : State σ) : Except Fault Report → Prop
  | well {r : Report} : failures history = [] →
      (begun history).Perm (List.range j.graph.steps.length) →
      (finished history).Perm (List.range j.graph.steps.length) →
      (r.completed.map (·.step)).Perm (j.graph.steps.map (·.id)) → Verdict j history s (.ok r)
  | failed {p : ℕ} {fault : Fault} : (p, fault) ∈ failures history →
      (∀ e ∈ failures history, p ≤ e.1) → Verdict j history s (.error fault)
  | cancelled : failures history = [] → s.stopAsked = true → s.stopped = true →
      (∃ p < j.graph.steps.length, p ∉ finished history) →
      Verdict j history s
        (.error (.cancelled (((finished history).filterMap j.step?).map Step.label)))

/-- Places that differ and are all there are. -/
theorem perm_range_of_forall {l : List ℕ} {n : ℕ} (hl : l.Nodup) (hlt : ∀ p ∈ l, p < n)
    (hall : ∀ p < n, p ∈ l) : l.Perm (List.range n) :=
  (List.perm_ext_iff_of_nodup hl List.nodup_range).2 fun p =>
    ⟨fun hp => List.mem_range.2 (hlt p hp), fun hp => hall p (List.mem_range.1 hp)⟩

/-- Where fewer steps are completed than there are, one is left. -/
theorem Scheduled.exists_left (h : Scheduled j s) (hlt : s.completed.length < j.graph.steps.length) :
    ∃ p < j.graph.steps.length, p ∉ s.done := by
  by_contra hnone
  have hall : ∀ p < j.graph.steps.length, p ∈ s.done :=
    fun p hp => by_contra fun hnot => hnone ⟨p, hp, hnot⟩
  have hperm := perm_range_of_forall h.done (fun p hp => h.placed p (h.doneStarted p hp)) hall
  have hlen := hperm.length_eq
  rw [List.length_range, ← h.completed] at hlen
  omega

/-- The steps of a graph, place by place. -/
theorem filterMap_step? (j : Setup σ) :
    (List.range j.graph.steps.length).filterMap j.step? = j.graph.steps := by
  have hmap : (List.range j.graph.steps.length).map j.step? = j.graph.steps.map some :=
    List.ext_getElem (by simp) fun p hp _ => by simp [Setup.step?]
  calc (List.range j.graph.steps.length).filterMap j.step?
      = ((List.range j.graph.steps.length).map j.step?).filterMap id := by
        rw [List.filterMap_map, Function.id_comp]
    _ = j.graph.steps := by rw [hmap, List.filterMap_map, Function.id_comp, List.filterMap_some]

/-- **A run that is over has come to one of three ends**, and which one is told by what happened. -/
theorem Booked.verdict (hg : j.graph.Sound) (hs : Scheduled j s) (h : Booked j history s)
    (hover : s.phase = .over) : Verdict j history s (j.outcome s) := by
  have hforemost := h.failure
  cases houtcome : j.outcome s with
  | ok r =>
    obtain ⟨hfailure, hall⟩ := hs.mem_done hg hover houtcome
    rw [hfailure] at hforemost
    have hdone := perm_range_of_forall hs.done (fun p hp => hs.placed p (hs.doneStarted p hp)) hall
    have hstarted := perm_range_of_forall hs.started hs.placed
      fun p hp => hs.doneStarted p (hall p hp)
    refine .well hforemost (h.begun ▸ hstarted) (h.finished ▸ hdone) ?_
    rw [report_of_outcome houtcome, h.map_step_completed, ← filterMap_step? j]
    exact (hdone.filterMap j.step?).map (·.id)
  | error fault =>
    rcases outcome_eq_error_iff.1 houtcome with ⟨p, hfailure⟩ | ⟨hfailure, hstopped, hlt, rfl⟩
    · rw [hfailure] at hforemost
      exact .failed hforemost.1 hforemost.2
    · rw [hfailure] at hforemost
      obtain ⟨p, hp, hnot⟩ := hs.exists_left hlt
      rw [h.map_label_completed]
      exact .cancelled hforemost (h.stopped hstopped) hstopped ⟨p, hp, h.finished ▸ hnot⟩

/-! ## 2.  All runs -/

/-- **Every run ends, and in one of three ways.**  It can always go on until it is over, and no more is
done than the bound for its moves.  All the time the steps that are completed are those that were picked
up with data, in this order, and the steps that they were made from are completed as well; and once one
has failed, or a request to stop has come in, no step begins any more.  When it is over, every step that
has begun has begun once and was picked up once, and the outcome is what the history says. -/
theorem verdict_of_way {α : Type w} {s : Session α} (hs : s.Reachable) {terminals : List Asset}
    (hterminals : ∀ a ∈ terminals, s.Offers (.asset a)) {g : Graph}
    (hbuilt : s.graph terminals = .ok g) {σ : Type u} {j : Setup σ} (hj : j.graph = g) {store : σ}
    {stopAsked : Bool} {choices : List Choice} {history : List (ℕ × Deed)} {t : State σ}
    (hway : Way j (.initial store stopAsked) choices history t) :
    choices.countP (· ≠ .ask) ≤ j.moves ∧
    (t.phase ≠ .over → ∃ c u, c ≠ .ask ∧ j.act t c = some u) ∧
    (t.completed.map (·.step) = ((finished history).filterMap j.step?).map (·.id) ∧
      ∀ id ∈ t.completed.map (·.step), ∀ parent ∈ g.upstream id,
        parent ∈ t.completed.map (·.step)) ∧
    ((t.stopped = true → t.stopAsked = true) ∧
      (failures history ≠ [] ∨ t.stopAsked = true →
        ∀ choices' history' u, Way j t choices' history' u → begun history' = [])) ∧
    (t.phase = .over → (begun history).Nodup ∧
      (begun history).Perm (finished history ++ (failures history).map (·.1)) ∧
      Verdict j history t (j.outcome t)) := by
  subst hj
  have hg := Session.sound_of_graph hs hterminals hbuilt
  obtain ⟨hscheduled, hbooked⟩ := booked_of_way hway
  refine ⟨countP_le_moves_of_way hway, hscheduled.exists_act, ⟨?_, fun id hid parent hparent => ?_⟩,
    ⟨hbooked.stopped, fun hheld choices' history' u hmore => ?_⟩,
    fun hover => ⟨?_, ?_, hbooked.verdict hg hscheduled hover⟩⟩
  · rw [hbooked.map_step_completed, hbooked.finished]
  · exact hbooked.upstream_completed hg hscheduled hid hparent
  · exact begun_eq_nil_of_way (hbooked.held_iff.2 hheld) hmore
  · rw [hbooked.begun]
    exact hscheduled.started
  · have hparted := hbooked.parted
    rw [hscheduled.ended hover, List.nil_append] at hparted
    rwa [hbooked.begun, hbooked.finished]

/-- The end of a run in which a request to stop comes in while the newer step reads. -/
def Late.stopped (j : Setup Memory) : State Memory :=
  j.drive j.moves { j.drive 3 (.initial Late.memory false) with stopAsked := true }

theorem Late.reaches_stopped (j : Setup Memory) :
    j.Reaches (.initial Late.memory false) (Late.stopped j) :=
  j.reaches_drive j.moves ((j.reaches_drive 3 (.refl _)).step .ask rfl)

theorem Late.alone_stopped (target : Target) :
    (Late.stopped (Late.alone target)).phase = .over ∧
      (Late.alone target).outcome (Late.stopped (Late.alone target)) =
        .error (.cancelled ["extend -> clean"]) :=
  ⟨by cbv, by cbv⟩

/-- The newer step, which runs when the request comes in, is completed, and the older one does not
begin. -/
theorem verdict_of_way_late : ∃ choices history,
    Way (Late.alone .default) (.initial Late.memory false) choices history
      (Late.stopped (Late.alone .default)) ∧
    (Late.stopped (Late.alone .default)).phase = .over ∧
    Verdict (Late.alone .default) history (Late.stopped (Late.alone .default))
      (.error (.cancelled ["extend -> clean"])) ∧
    (begun history).Perm (finished history ++ (failures history).map (·.1)) := by
  obtain ⟨choices, history, hway⟩ := exists_way (Late.reaches_stopped (Late.alone .default))
  obtain ⟨-, -, -, -, hend⟩ := verdict_of_way (Session.Late.reachable (t := Late.extend .default) rfl)
    (Session.Late.offers _) (Session.Late.graph_eq _) rfl hway
  obtain ⟨hover, houtcome⟩ := Late.alone_stopped .default
  obtain ⟨-, hparted, hverdict⟩ := hend hover
  rw [houtcome] at hverdict
  exact ⟨choices, history, hway, hover, hverdict, hparted⟩

end Provenance.Run
