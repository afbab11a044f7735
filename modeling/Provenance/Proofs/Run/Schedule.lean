import Mathlib.Data.List.Nodup
import Mathlib.Data.List.Perm.Subperm
import Provenance.Proofs.Graph.Sound
import Provenance.Proofs.Run.Moves

/-!
# What the scheduler has in its books

A step is not started, or a worker is at it, or it is done, or it has failed; it is started once, after
all that it waits for is done, and no more workers run than there may be.  `Scheduled` says this of a
state, and every move keeps it (`Scheduled.move`).

A run of a sound graph that ends well has done every step (`Scheduled.mem_done`).  When the scheduler
waits although no failure and no request to stop holds it back and no worker runs, no step is ready;
and then none is left, since the first step that is left would be ready.
-/

namespace Provenance.Run

universe u

variable {σ : Type u} {j : Setup σ} {s t : State σ}

/-- The books of the scheduler are in order. -/
structure Scheduled (j : Setup σ) (s : State σ) : Prop where
  placed : ∀ p ∈ s.started, p < j.graph.steps.length
  started : s.started.Nodup
  busy : s.busy.Nodup
  done : s.done.Nodup
  busyStarted : ∀ p ∈ s.busy, p ∈ s.started
  doneStarted : ∀ p ∈ s.done, p ∈ s.started
  apart : ∀ p ∈ s.busy, p ∉ s.done
  awaited : ∀ p ∈ s.started, ∀ step, j.step? p = some step → ∀ q ∈ j.awaits step, q ∈ s.done
  bounded : s.busy.length ≤ j.bound
  completed : s.completed.length = s.done.length
  accounted : s.failure = none → ∀ p ∈ s.started, p ∈ s.busy ∨ p ∈ s.done
  idle : s.phase ≠ .filling → s.failure.isSome ∨ s.stopped = true ∨ j.bound ≤ s.busy.length ∨
    j.nextReady? s = none
  ended : s.phase = .over → s.busy = []

theorem scheduled_initial (j : Setup σ) (store : σ) (stopAsked : Bool) :
    Scheduled j (.initial store stopAsked) := by
  constructor <;> simp [State.initial, State.busy]

/-- What is ready depends on what is started and done alone. -/
theorem nextReady?_congr (hstarted : t.started = s.started) (hdone : t.done = s.done) :
    j.nextReady? t = j.nextReady? s := by
  unfold Setup.nextReady? Setup.isReady
  rw [hstarted, hdone]

theorem Scheduled.of_keeps (h : Scheduled j s) (hkeeps : Keeps s t) : Scheduled j t := by
  have hready := nextReady?_congr (j := j) hkeeps.started hkeeps.done
  constructor
  case placed => rw [hkeeps.started]; exact h.placed
  case started => rw [hkeeps.started]; exact h.started
  case busy => rw [hkeeps.busy]; exact h.busy
  case done => rw [hkeeps.done]; exact h.done
  case busyStarted => rw [hkeeps.busy, hkeeps.started]; exact h.busyStarted
  case doneStarted => rw [hkeeps.done, hkeeps.started]; exact h.doneStarted
  case apart => rw [hkeeps.busy, hkeeps.done]; exact h.apart
  case awaited => rw [hkeeps.started, hkeeps.done]; exact h.awaited
  case bounded => rw [hkeeps.busy]; exact h.bounded
  case completed => rw [hkeeps.completed, hkeeps.done]; exact h.completed
  case accounted => rw [hkeeps.failure, hkeeps.started, hkeeps.busy, hkeeps.done]; exact h.accounted
  case idle => rw [hkeeps.phase, hkeeps.failure, hkeeps.stopped, hkeeps.busy, hready]; exact h.idle
  case ended => rw [hkeeps.phase, hkeeps.busy]; exact h.ended

/-- The keys that are left when one is taken out. -/
theorem mem_keys_unassign {β : Type*} {k p : ℕ} {m : List (ℕ × β)} :
    p ∈ (unassign k m).map (·.1) ↔ p ∈ m.map (·.1) ∧ p ≠ k := by
  unfold unassign
  simp only [List.mem_map, List.mem_filter, decide_eq_true_eq]
  constructor
  · rintro ⟨e, ⟨he, hne⟩, rfl⟩
    exact ⟨⟨e, he, rfl⟩, hne⟩
  · rintro ⟨⟨e, he, rfl⟩, hne⟩
    exact ⟨e, ⟨he, hne⟩, rfl⟩

/-- A step that is ready is started. -/
theorem Scheduled.start (h : Scheduled j s) {place : ℕ} {step : Step} (hphase : s.phase = .filling)
    (hbound : s.busy.length < j.bound) (hready : j.nextReady? s = some place)
    (hstep : j.step? place = some step) : Scheduled j (j.start s place step) := by
  obtain ⟨hfresh, hawaits⟩ := ready_of_nextReady? hready hstep
  have hbusy : (j.start s place step).busy = s.busy ++ [place] := List.map_append
  have hnew : place ∉ s.busy := fun hmem => hfresh (h.busyStarted place hmem)
  have hplace : place < j.graph.steps.length := (List.getElem?_eq_some_iff.1 hstep).1
  constructor
  case placed =>
    exact List.forall_mem_append.2 ⟨h.placed, by simpa using hplace⟩
  case started =>
    exact nodup_append_singleton h.started hfresh
  case busy =>
    rw [hbusy]
    exact nodup_append_singleton h.busy hnew
  case done => exact h.done
  case busyStarted =>
    intro p hp
    rw [hbusy] at hp
    exact (List.mem_append.1 hp).elim (fun hp => List.mem_append_left _ (h.busyStarted p hp))
      (List.mem_append_right _)
  case doneStarted => exact fun p hp => List.mem_append_left _ (h.doneStarted p hp)
  case apart =>
    intro p hp hdone
    rw [hbusy] at hp
    rcases List.mem_append.1 hp with hp | hp
    · exact h.apart p hp hdone
    · exact hfresh (h.doneStarted place (List.mem_singleton.1 hp ▸ hdone))
  case awaited =>
    intro p hp other hother
    rcases List.mem_append.1 hp with hp | hp
    · exact h.awaited p hp other hother
    · rw [List.mem_singleton.1 hp, hstep] at hother
      rw [← Option.some.inj hother]
      exact hawaits
  case bounded =>
    rw [hbusy, List.length_append, List.length_singleton]
    exact hbound
  case completed => exact h.completed
  case accounted =>
    intro hfailure p hp
    rw [hbusy]
    rcases List.mem_append.1 hp with hp | hp
    · exact (h.accounted hfailure p hp).imp_left (List.mem_append_left _)
    · exact .inl (List.mem_append_right _ hp)
  case idle => exact fun hidle => absurd hphase hidle
  case ended =>
    intro hover
    rw [show s.phase = .over from hover] at hphase
    exact absurd hphase (by simp)

/-- The step that is started reads, and nothing else changes for the workers. -/
theorem Scheduled.lookup_start (h : Scheduled j s) {place : ℕ} {step : Step}
    (hready : j.nextReady? s = some place) (hstep : j.step? place = some step) (p : ℕ) :
    (j.start s place step).working.lookup p =
      if p = place then some (.reading .empty (j.plan step s.made)) else s.working.lookup p := by
  have hnew : place ∉ s.busy := fun hmem =>
    (ready_of_nextReady? hready hstep).1 (h.busyStarted place hmem)
  exact lookup_append_singleton p (Stage.reading .empty (j.plan step s.made)) hnew

/-- The stage of a step after one has been started is that it reads, or the one from before. -/
theorem Scheduled.of_lookup_start (h : Scheduled j s) {place p : ℕ} {step other : Step} {found : Stage}
    (hready : j.nextReady? s = some place) (hstep : j.step? place = some step)
    (hother : j.step? p = some other)
    (hfound : (j.start s place step).working.lookup p = some found) :
    p = place ∧ other = step ∧ found = .reading .empty (j.plan step s.made) ∨
      p ≠ place ∧ s.working.lookup p = some found := by
  rw [h.lookup_start hready hstep] at hfound
  by_cases hp : p = place
  · subst hp
    rw [if_pos rfl] at hfound
    exact .inl ⟨rfl, Option.some.inj (hother.symm.trans hstep), (Option.some.inj hfound).symm⟩
  · rw [if_neg hp] at hfound
    exact .inr ⟨hp, hfound⟩

/-- A step that is picked up with its data is done. -/
theorem Scheduled.finish (h : Scheduled j s) {place : ℕ} {step : Step} {data : Dataset}
    (hplace : place ∈ s.busy) :
    Scheduled j (j.finish { s with phase := .filling, working := unassign place s.working }
      place step data) := by
  have hbusy : ∀ p, p ∈ (unassign place s.working).map (·.1) ↔ p ∈ s.busy ∧ p ≠ place :=
    fun p => mem_keys_unassign
  have hsub : ((unassign place s.working).map (·.1)).Sublist s.busy := List.filter_sublist.map _
  constructor
  case placed => exact h.placed
  case started => exact h.started
  case busy => exact h.busy.sublist hsub
  case done =>
    exact nodup_append_singleton h.done (h.apart place hplace)
  case busyStarted => exact fun p hp => h.busyStarted p ((hbusy p).1 hp).1
  case doneStarted =>
    intro p hp
    rcases List.mem_append.1 hp with hp | hp
    · exact h.doneStarted p hp
    · rw [List.mem_singleton.1 hp]
      exact h.busyStarted place hplace
  case apart =>
    intro p hp hdone
    obtain ⟨hp, hne⟩ := (hbusy p).1 hp
    rcases List.mem_append.1 hdone with hdone | hdone
    · exact h.apart p hp hdone
    · exact hne (List.mem_singleton.1 hdone)
  case awaited =>
    exact fun p hp other hother q hq => List.mem_append_left _ (h.awaited p hp other hother q hq)
  case bounded => exact Nat.le_trans hsub.length_le h.bounded
  case completed =>
    show (s.completed ++ [_]).length = (s.done ++ [place]).length
    rw [List.length_append, List.length_append, h.completed]
    rfl
  case accounted =>
    intro hfailure p hp
    by_cases hne : p = place
    · exact .inr (List.mem_append_right _ (List.mem_singleton.2 hne))
    · rcases h.accounted hfailure p hp with hp | hp
      · exact .inl ((hbusy p).2 ⟨hp, hne⟩)
      · exact .inr (List.mem_append_left _ hp)
  case idle => exact fun hidle => absurd rfl hidle
  case ended => exact fun hover => absurd hover (by simp [Setup.finish, State.note])

/-- A failure is noted, and of several the first in the order of execution stays. -/
theorem fail_eq (s : State σ) (place : ℕ) (step : Step) (fault : Fault) :
    Setup.fail s place step fault = { s.note .failed step with
      failure := some (match s.failure with
        | some first => if place < first.1 then (place, fault) else first
        | none => (place, fault)) } := by
  unfold Setup.fail
  dsimp only
  split
  · rename_i first earlier hfailure
    rw [show s.failure = some (first, earlier) from hfailure]
    dsimp only
    split
    · rfl
    · rw [← hfailure]
  · rename_i hfailure
    rw [show s.failure = none from hfailure]

theorem failure_fail (s : State σ) (place : ℕ) (step : Step) (fault : Fault) :
    ∃ failure, failure ≠ none ∧
      Setup.fail s place step fault = { s.note .failed step with failure } :=
  ⟨_, Option.some_ne_none _, fail_eq s place step fault⟩

/-- A step that is picked up with a fault is neither busy nor done. -/
theorem Scheduled.fail (h : Scheduled j s) {place : ℕ} {step : Step} {fault : Fault} :
    Scheduled j (Setup.fail { s with phase := .filling, working := unassign place s.working }
      place step fault) := by
  have hsub : ((unassign place s.working).map (·.1)).Sublist s.busy := List.filter_sublist.map _
  obtain ⟨failure, hfailure, heq⟩ := failure_fail
    { s with phase := .filling, working := unassign place s.working } place step fault
  rw [heq]
  constructor
  case placed => exact h.placed
  case started => exact h.started
  case busy => exact h.busy.sublist hsub
  case done => exact h.done
  case busyStarted => exact fun p hp => h.busyStarted p (hsub.subset hp)
  case doneStarted => exact h.doneStarted
  case apart => exact fun p hp => h.apart p (hsub.subset hp)
  case awaited => exact h.awaited
  case bounded => exact Nat.le_trans hsub.length_le h.bounded
  case completed => exact h.completed
  case accounted => exact fun hnone => absurd hnone hfailure
  case idle => exact fun hidle => absurd rfl hidle
  case ended => exact fun hover => absurd hover (by simp [State.note])

/-- **Every move keeps the books in order.** -/
theorem Scheduled.move {c : Choice} (h : Scheduled j s) (hmove : Move j s c t) : Scheduled j t := by
  cases hmove with
  | ask => exact h.of_keeps ⟨rfl, rfl, rfl, rfl, rfl, rfl, rfl, rfl⟩
  | @wait stopped hphase _ _ hreason =>
    have hreason : s.failure.isSome ∨ stopped = true ∨ j.bound ≤ s.busy.length ∨ j.nextReady? s = none := by
      rwa [State.busy, List.length_map]
    exact ⟨h.placed, h.started, h.busy, h.done, h.busyStarted, h.doneStarted, h.apart, h.awaited,
      h.bounded, h.completed, h.accounted, fun _ => hreason, fun hover => absurd hover (by simp)⟩
  | start hphase _ _ hbound hready hstep =>
    exact h.start hphase (by rwa [State.busy, List.length_map]) hready hstep
  | close hphase hempty =>
    refine ⟨h.placed, h.started, h.busy, h.done, h.busyStarted, h.doneStarted, h.apart, h.awaited,
      h.bounded, h.completed, h.accounted, fun _ => h.idle (by simp [hphase]), fun _ => ?_⟩
    show s.working.map (·.1) = []
    rw [hempty, List.map_nil]
  | work _ hstage hadvance => exact h.of_keeps (hadvance.keeps (mem_busy_of_lookup hstage))
  | finish _ _ hstage => exact h.finish (mem_busy_of_lookup hstage)
  | fail _ _ _ => exact h.fail

theorem scheduled_of_reaches {store : σ} {stopAsked : Bool}
    (h : j.Reaches (.initial store stopAsked) s) : Scheduled j s :=
  h.invariant (fun _ _ _ hs hmove => hs.move hmove) (scheduled_initial j store stopAsked)

/-! ## The end of a run -/

theorem Setup.address_handle (j : Setup σ) (a : Asset) : (j.handle a).address = a.address := by
  unfold Setup.handle
  cases h : j.graph.asset? a.address with
  | none => rfl
  | some x => exact by simpa using List.find?_some h

theorem place_eq_of_id_eq (hg : j.graph.Sound) {p q : ℕ} {step other : Step}
    (hp : j.step? p = some step) (hq : j.step? q = some other) (h : step.id = other.id) : p = q := by
  have hposition := hg.position?_of_getElem? hp
  rw [h, hg.position?_of_getElem? hq] at hposition
  exact (Option.some.inj hposition).symm

/-- Steps at different places write to different addresses. -/
theorem output_ne_of_place_ne (hg : j.graph.Sound) {p q : ℕ} {step other : Step}
    (hp : j.step? p = some step) (hq : j.step? q = some other) (hne : p ≠ q) :
    step.output.address ≠ other.output.address := by
  intro heq
  obtain rfl := hg.eq_of_output_eq (List.mem_of_getElem? hp) (List.mem_of_getElem? hq) heq
  exact hne (place_eq_of_id_eq hg hp hq rfl)

/-- A step waits for the steps that write what it reads. -/
theorem mem_awaits_iff (hg : j.graph.Sound) {place q : ℕ} {step : Step}
    (hstep : j.step? place = some step) :
    q ∈ j.awaits step ↔ ∃ t, j.step? q = some t ∧ step.ReadsFrom t.output.address := by
  have hmem : step ∈ j.graph.steps := List.mem_of_getElem? hstep
  unfold Setup.awaits
  rw [List.mem_filterMap]
  constructor
  · rintro ⟨id, hid, hq⟩
    obtain ⟨t, ht, rfl, hreads⟩ := (hg.mem_upstream_iff hmem).1 hid
    obtain ⟨k, hk⟩ := List.mem_iff_getElem?.1 ht
    rw [hg.position?_of_getElem? hk] at hq
    obtain rfl := Option.some.inj hq
    exact ⟨t, hk, hreads⟩
  · rintro ⟨t, ht, hreads⟩
    exact ⟨t.id, (hg.mem_upstream_iff hmem).2 ⟨t, List.mem_of_getElem? ht, rfl, hreads⟩,
      hg.position?_of_getElem? ht⟩

/-- Data that a step of another kind reads has to be written. -/
theorem mustWrite_of_readsFrom (hg : j.graph.Sound) {step reader : Step}
    (hreader : reader ∈ j.graph.steps) (hreads : reader.ReadsFrom step.output.address)
    (hkind : step.kind ≠ reader.kind) : j.mustWrite step = true := by
  have hany : ((j.graph.consumers step.output.address).any fun c => c.kind != step.kind) = true :=
    List.any_eq_true.2 ⟨reader, (hg.mem_consumers_iff).2 ⟨hreader, hreads⟩, by simpa using Ne.symm hkind⟩
  unfold Setup.mustWrite
  dsimp only
  rw [hany, Bool.or_true]

/-- **Where the inputs of a ready step come from.**  One that no step produces is left to the storage.  The
producer of any other is done, and what it has made is handed over if it is of the same kind. -/
theorem forall₂_plan (hg : j.graph.Sound) {place : ℕ} {step : Step} (hstep : j.step? place = some step)
    (hawaits : ∀ q ∈ j.awaits step, q ∈ s.done) {R : String × Asset → String × Source → Prop}
    (hsource : ∀ i ∈ step.inputs, j.graph.producer? i.2.address = none →
      R i (i.1, .storage (j.handle i.2)))
    (hmade : ∀ i ∈ step.inputs, ∀ q ∈ s.done, ∀ producer, j.step? q = some producer →
      j.graph.producer? i.2.address = some producer → producer.output.address = i.2.address →
        ∃ data, s.made.lookup producer.output.address = some data ∧
          R i (i.1, if producer.kind = step.kind then .memory data else .storage (j.handle i.2))) :
    List.Forall₂ R step.inputs (j.plan step s.made) := by
  unfold Setup.plan
  rw [List.forall₂_map_right_iff, List.forall₂_same]
  rintro ⟨param, a⟩ hi
  dsimp only
  cases hproducer : j.graph.producer? a.address with
  | none => exact hsource (param, a) hi hproducer
  | some producer =>
    obtain ⟨hmem, hout⟩ := (hg.producer?_eq_some_iff).1 hproducer
    obtain ⟨q, hq⟩ := List.mem_iff_getElem?.1 hmem
    have hdone : q ∈ s.done :=
      hawaits q ((mem_awaits_iff hg hstep).2 ⟨producer, hq, (param, a), hi, hout.symm⟩)
    obtain ⟨data, hdata, hR⟩ := hmade (param, a) hi q hdone producer hq hproducer hout
    rw [hout] at hdata
    rw [Option.map_some, Option.getD_some]
    by_cases hkind : producer.kind = step.kind
    · rw [if_pos hkind] at hR
      rwa [if_pos (by simpa using hkind), hdata]
    · rw [if_neg hkind] at hR
      rwa [if_neg (by simpa using hkind)]

/-- A step is ready once all that stand before it are done. -/
theorem isReady_of_forall_lt (hg : j.graph.Sound) {p : ℕ} (hp : p < j.graph.steps.length)
    (hfresh : p ∉ s.started) (hdone : ∀ q < p, q ∈ s.done) : j.isReady s p = true := by
  have hstep : j.step? p = some j.graph.steps[p] := List.getElem?_eq_getElem hp
  refine isReady_iff.2 ⟨hfresh, _, hstep, fun q hq => ?_⟩
  obtain ⟨t, ht, hreads⟩ := (mem_awaits_iff hg hstep).1 hq
  exact hdone q (hg.lt_of_readsFrom ht hstep hreads)

/-- Where no step is ready and none runs, none is left. -/
theorem Scheduled.mem_done_of_idle (h : Scheduled j s) (hg : j.graph.Sound)
    (hfailure : s.failure = none) (hbusy : s.busy = []) (hready : j.nextReady? s = none) :
    ∀ p < j.graph.steps.length, p ∈ s.done := by
  have hstarted : ∀ p ∈ s.started, p ∈ s.done :=
    fun p hp => (h.accounted hfailure p hp).resolve_left (by simp [hbusy])
  intro p
  -- a step that is left waits for earlier ones, which are done
  induction p using Nat.strongRecOn with
  | ind p ih =>
    intro hp
    by_contra hleft
    have hnot : j.isReady s p = false := by
      simpa using List.find?_eq_none.1 hready p (List.mem_range.2 hp)
    have hfresh : p ∉ s.started := fun hmem => hleft (hstarted p hmem)
    have hp' := isReady_of_forall_lt hg hp hfresh fun q hq => ih q hq (Nat.lt_trans hq hp)
    exact absurd (hnot.symm.trans hp') Bool.false_ne_true

/-- A run that is over has seen a request to stop or has done every step, if nothing has failed. -/
theorem Scheduled.stopped_or_mem_done (h : Scheduled j s) (hg : j.graph.Sound) (hover : s.phase = .over)
    (hfailure : s.failure = none) : s.stopped = true ∨ ∀ p < j.graph.steps.length, p ∈ s.done := by
  have hbusy := h.ended hover
  have hfree : ¬ j.bound ≤ s.busy.length := by
    have hpos : 1 ≤ j.bound := Nat.le_max_right j.workers 1
    rw [hbusy, List.length_nil]
    omega
  rcases h.idle (by simp [hover]) with hfail | hstopped | hfull | hready
  · exact absurd hfail (by simp [hfailure])
  · exact .inl hstopped
  · exact absurd hfull hfree
  · exact .inr (h.mem_done_of_idle hg hfailure hbusy hready)

theorem outcome_eq_ok_iff {r : Report} : j.outcome s = .ok r ↔
    s.failure = none ∧ (s.stopped = true → j.graph.steps.length ≤ s.completed.length) ∧
      r = ⟨j.site, s.completed, s.written, s.trace, s.made.filter fun e => j.graph.isSink e.1⟩ := by
  unfold Setup.outcome
  cases s.failure with
  | some failure => simp
  | none =>
    by_cases hstopped : s.stopped = true ∧ s.completed.length < j.graph.steps.length
    · simp [hstopped]
    · have hall : s.stopped = true → j.graph.steps.length ≤ s.completed.length := by
        simpa using hstopped
      rw [if_neg (by simpa using hstopped), Except.ok.injEq]
      exact ⟨fun hr => ⟨rfl, hall, hr.symm⟩, fun hr => hr.2.2.symm⟩

theorem outcome_eq_error_iff {fault : Fault} : j.outcome s = .error fault ↔
    (∃ p, s.failure = some (p, fault)) ∨ s.failure = none ∧ s.stopped = true ∧
      s.completed.length < j.graph.steps.length ∧
        fault = .cancelled (s.completed.map Completed.label) := by
  unfold Setup.outcome
  cases s.failure with
  | some failure => simp [Prod.ext_iff]
  | none =>
    by_cases hstopped : s.stopped = true ∧ s.completed.length < j.graph.steps.length
    · simp [hstopped, eq_comm]
    · rw [if_neg (by simpa using hstopped)]
      constructor
      · intro h
        exact absurd h (by simp)
      · rintro (⟨p, hp⟩ | ⟨-, hasked, hlt, -⟩)
        · exact absurd hp (by simp)
        · exact absurd ⟨hasked, hlt⟩ hstopped

/-- **A run of a sound graph that ends well has done every step.** -/
theorem Scheduled.mem_done (h : Scheduled j s) (hg : j.graph.Sound) (hover : s.phase = .over)
    {r : Report} (hr : j.outcome s = .ok r) :
    s.failure = none ∧ ∀ p < j.graph.steps.length, p ∈ s.done := by
  obtain ⟨hfailure, hall, -⟩ := outcome_eq_ok_iff.1 hr
  refine ⟨hfailure, (h.stopped_or_mem_done hg hover hfailure).elim (fun hstopped => ?_) id⟩
  have hlen : j.graph.steps.length ≤ s.done.length := h.completed ▸ hall hstopped
  have hsub : s.done ⊆ List.range j.graph.steps.length := fun p hp =>
    List.mem_range.2 (h.placed p (h.doneStarted p hp))
  have hperm := (List.subperm_of_subset h.done hsub).perm_of_length_le (by simpa using hlen)
  exact fun p hp => hperm.mem_iff.2 (List.mem_range.2 hp)

end Provenance.Run
