import Provenance.Proofs.Run.History

/-!
# What the scheduler makes of a history

The scheduler does not look back; it decides by what it has in its books.  Here the books are compared
with the history that led to them (`Booked`), and every move keeps them true (`Booked.move`).

* What has begun is what is started, what was picked up with data is done, and of what has begun each
  step runs still, is done, or was picked up with a fault: never two of these, and each once.
* The failure that is kept is the first of all failures in the order of execution, although they come in
  any order (`Foremost.snoc`).
* The steps that are completed are those that are done, in the same order.
* A request to stop that was seen has been made.

Two consequences are what a run promises while it goes on: once it has failed, or has seen a request to
stop, nothing begins any more (`begun_eq_nil_of_way`), and what is completed is closed under what it
was made from (`upstream_completed`).
-/

namespace Provenance.Run

universe u

variable {σ : Type u} {j : Setup σ} {s t : State σ} {choices : List Choice}
  {history : List (ℕ × Deed)}

/-- The failure that counts: one of the failures, and none comes before it in the order of execution. -/
def Foremost (failures : List (ℕ × Fault)) : Option (ℕ × Fault) → Prop
  | none => failures = []
  | some f => f ∈ failures ∧ ∀ e ∈ failures, f.1 ≤ e.1

/-- The books of the scheduler say what the history says. -/
structure Booked (j : Setup σ) (history : List (ℕ × Deed)) (s : State σ) : Prop where
  begun : begun history = s.started
  finished : finished history = s.done
  parted : s.started.Perm (s.busy ++ (s.done ++ (failures history).map (·.1)))
  failure : Foremost (failures history) s.failure
  completed : s.completed.map (fun c => (c.step, c.label)) =
    (s.done.filterMap j.step?).map fun step => (step.id, step.label)
  stopped : s.stopped = true → s.stopAsked = true

theorem booked_initial (j : Setup σ) (store : σ) (stopAsked : Bool) :
    Booked j [] (.initial store stopAsked) where
  begun := rfl
  finished := rfl
  parted := .nil
  failure := rfl
  completed := rfl
  stopped h := absurd h (by simp [State.initial])

/-! ## 1.  What a move adds to the books -/

theorem Foremost.snoc_none {failures : List (ℕ × Fault)} (h : Foremost failures none)
    (f : ℕ × Fault) : Foremost (failures ++ [f]) (some f) := by
  rw [show failures = [] from h, List.nil_append]
  exact ⟨List.mem_singleton_self f, fun e he => (congrArg Prod.fst (List.mem_singleton.1 he)).ge⟩

/-- Of the failure that is kept and one more, the one that comes first is kept. -/
theorem Foremost.snoc {failures : List (ℕ × Fault)} {first : ℕ × Fault}
    (h : Foremost failures (some first)) (f : ℕ × Fault) :
    Foremost (failures ++ [f]) (some (if f.1 < first.1 then f else first)) := by
  obtain ⟨hmem, hle⟩ := h
  constructor
  · split
    · exact List.mem_append_right _ (List.mem_singleton_self f)
    · exact List.mem_append_left _ hmem
  · intro e he
    rcases List.mem_append.1 he with he | he
    · have := hle e he
      split <;> omega
    · rw [List.mem_singleton.1 he]
      split <;> omega

/-- What is done to a state by a failure: it is noted, and the first of the failures stays. -/
theorem foremost_fail (place : ℕ) (step : Step) (fault : Fault)
    (h : Foremost (failures history) s.failure) :
    ∃ failure, Foremost (failures history ++ [(place, fault)]) failure ∧
      Setup.fail s place step fault = { s.note .failed step with failure } := by
  refine ⟨_, ?_, fail_eq s place step fault⟩
  cases hfailure : s.failure with
  | none => exact (hfailure ▸ h).snoc_none (place, fault)
  | some first => exact (hfailure ▸ h).snoc (place, fault)

/-- A worker that is picked up is taken from those that run. -/
theorem perm_busy_unassign (hbusy : s.busy.Nodup) {place : ℕ} (hplace : place ∈ s.busy) :
    s.busy.Perm (place :: (unassign place s.working).map (·.1)) := by
  have hleft : ((unassign place s.working).map (·.1)).Nodup := hbusy.sublist (List.filter_sublist.map _)
  have hnot : place ∉ (unassign place s.working).map (·.1) := fun hmem =>
    (mem_keys_unassign.1 hmem).2 rfl
  refine (List.perm_ext_iff_of_nodup hbusy (List.nodup_cons.2 ⟨hnot, hleft⟩)).2 fun p => ?_
  rw [List.mem_cons, mem_keys_unassign]
  by_cases hp : p = place
  · simp only [hp, true_or, iff_true]
    exact hplace
  · simp only [hp, false_or, ne_eq, not_false_eq_true, and_true]
    rfl

/-- Where nothing that concerns the scheduler changes, the books stay true. -/
theorem Booked.of_keeps {deeds : List (ℕ × Deed)} (h : Booked j history s) (hkeeps : Keeps s t)
    (hbegun : Run.begun deeds = []) (hfinished : Run.finished deeds = []) (hfailures : failures deeds = [])
    (hasked : s.stopAsked = true → t.stopAsked = true) : Booked j (history ++ deeds) t where
  begun := by rw [begun_append, hbegun, List.append_nil, hkeeps.started, h.begun]
  finished := by rw [finished_append, hfinished, List.append_nil, hkeeps.done, h.finished]
  parted := by
    rw [failures_append, hfailures, List.append_nil, hkeeps.started, hkeeps.busy, hkeeps.done]
    exact h.parted
  failure := by
    rw [failures_append, hfailures, List.append_nil, hkeeps.failure]
    exact h.failure
  completed := by rw [hkeeps.completed, hkeeps.done, h.completed]
  stopped := by
    rw [hkeeps.stopped]
    exact fun hstopped => hasked (h.stopped hstopped)

theorem Booked.start (h : Booked j history s) (place : ℕ) (step : Step) :
    Booked j (history ++ j.deeds s .schedule (j.start s place step)) (j.start s place step) := by
  have hbusy : (j.start s place step).busy = s.busy ++ [place] := List.map_append
  have hfailures : failures [(place, Deed.began (j.plan step s.made))] = [] := rfl
  rw [deeds_start]
  refine ⟨?_, ?_, ?_, ?_, h.completed, h.stopped⟩
  · rw [begun_append, h.begun]
    rfl
  · rw [finished_append, h.finished]
    exact List.append_nil _
  · rw [failures_append, hfailures, List.append_nil, hbusy, List.append_assoc]
    calc (s.started ++ [place]).Perm (place :: s.started) := List.perm_append_singleton place s.started
      _ |>.Perm (place :: (s.busy ++ (s.done ++ (failures history).map (·.1)))) := h.parted.cons place
      _ |>.Perm (s.busy ++ place :: (s.done ++ (failures history).map (·.1))) := List.perm_middle.symm
  · rw [failures_append, hfailures, List.append_nil]
    exact h.failure

/-- A step that is picked up is no longer among those that run. -/
theorem Booked.parted_collect (h : Booked j history s) (hbusy : s.busy.Nodup) {place : ℕ}
    (hplace : place ∈ s.busy) : s.started.Perm
      (place :: ((unassign place s.working).map (·.1) ++ (s.done ++ (failures history).map (·.1)))) :=
  h.parted.trans ((perm_busy_unassign hbusy hplace).append_right _)

theorem Booked.finish (h : Booked j history s) (hbusy : s.busy.Nodup) {place : ℕ} {step : Step}
    {data : Dataset} (hstep : j.step? place = some step)
    (hstage : s.working.lookup place = some (.ended (.ok data))) :
    Booked j (history ++ j.deeds s (.collect place) t) (j.finish
      { s with phase := .filling, working := unassign place s.working } place step data) := by
  have hfailures : failures [(place, Deed.finished)] = [] := rfl
  rw [deeds_finish hstage]
  refine ⟨?_, ?_, ?_, ?_, ?_, h.stopped⟩
  · rw [begun_append, h.begun]
    exact List.append_nil _
  · rw [finished_append, h.finished]
    rfl
  · rw [failures_append, hfailures, List.append_nil]
    refine (h.parted_collect hbusy (mem_busy_of_lookup hstage)).trans ?_
    show (place :: ((unassign place s.working).map (·.1) ++ (s.done ++ (failures history).map (·.1)))).Perm
      ((unassign place s.working).map (·.1) ++ (s.done ++ [place] ++ (failures history).map (·.1)))
    rw [List.append_assoc, List.singleton_append, ← List.append_assoc, ← List.append_assoc]
    exact List.perm_middle.symm
  · rw [failures_append, hfailures, List.append_nil]
    exact h.failure
  · show (s.completed ++ [_]).map _ = ((s.done ++ [place]).filterMap j.step?).map _
    rw [List.map_append, h.completed, List.filterMap_append, List.map_append]
    simp [hstep, Completed.label, Step.label]

theorem Booked.fail (h : Booked j history s) (hbusy : s.busy.Nodup) {place : ℕ} {step : Step}
    {fault : Fault} (hstage : s.working.lookup place = some (.ended (.error fault))) :
    Booked j (history ++ j.deeds s (.collect place) t) (Setup.fail
      { s with phase := .filling, working := unassign place s.working } place step fault) := by
  have hfailures : failures [(place, Deed.failed fault)] = [(place, fault)] := rfl
  obtain ⟨failure, hforemost, heq⟩ := foremost_fail place step fault
    (s := { s with phase := .filling, working := unassign place s.working }) h.failure
  rw [heq, deeds_fail hstage]
  refine ⟨?_, ?_, ?_, ?_, h.completed, h.stopped⟩
  · rw [begun_append, h.begun]
    exact List.append_nil _
  · rw [finished_append, h.finished]
    exact List.append_nil _
  · rw [failures_append, hfailures, List.map_append]
    refine (h.parted_collect hbusy (mem_busy_of_lookup hstage)).trans ?_
    show (place :: ((unassign place s.working).map (·.1) ++ (s.done ++ (failures history).map (·.1)))).Perm
      ((unassign place s.working).map (·.1) ++ (s.done ++ ((failures history).map (·.1) ++ [place])))
    rw [← List.append_assoc, ← List.append_assoc, ← List.append_assoc]
    exact (List.perm_append_singleton place _).symm
  · rw [failures_append, hfailures]
    exact hforemost

/-- A request to stop is not taken back by a worker. -/
theorem Advance.stopAsked {step : Step} {stage stage' : Stage} {rest : State σ}
    (h : Advance j step s stage stage' rest) (hasked : s.stopAsked = true) : rest.stopAsked = true := by
  cases h with
  | computed _ _ hkept _ => exact hkept hasked
  | aborted _ _ hkept _ => exact hkept hasked
  | _ => exact hasked

/-- **Every move keeps the books true.** -/
theorem Booked.move {c : Choice} (h : Booked j history s) (hs : Scheduled j s) (hmove : Move j s c t) :
    Booked j (history ++ j.deeds s c t) t := by
  cases hmove with
  | ask => exact h.of_keeps ⟨rfl, rfl, rfl, rfl, rfl, rfl, rfl, rfl⟩ rfl rfl rfl fun _ => rfl
  | wait hphase hkept hseen _ =>
    rw [deeds_turn, List.append_nil]
    exact ⟨h.begun, h.finished, h.parted, h.failure, h.completed, fun hstopped =>
      (hseen hstopped).elim h.stopped id⟩
  | start _ _ _ _ _ _ => exact h.start _ _
  | close _ _ =>
    rw [deeds_turn, List.append_nil]
    exact ⟨h.begun, h.finished, h.parted, h.failure, h.completed, h.stopped⟩
  | work hstep hstage hadvance =>
    obtain ⟨hbegun, hfinished, hfailures⟩ := begun_work (s := s) (j := j) _ _ _
    rw [deeds_work hstep hstage]
    exact h.of_keeps (hadvance.keeps (mem_busy_of_lookup hstage)) hbegun hfinished hfailures
      hadvance.stopAsked
  | finish _ hstep hstage => exact h.finish hs.busy hstep hstage
  | fail _ _ hstage => exact h.fail hs.busy hstage

/-- **Whatever choices are made, the books say what has happened.** -/
theorem booked_of_way {store : σ} {stopAsked : Bool}
    (h : Way j (.initial store stopAsked) choices history s) : Scheduled j s ∧ Booked j history s := by
  refine h.invariant (P := fun _ history s => Scheduled j s ∧ Booked j history s) ?_
    ⟨scheduled_initial j store stopAsked, booked_initial j store stopAsked⟩
  rintro choices history s c t ⟨hs, hbooked⟩ hmove
  exact ⟨hs.move hmove, hbooked.move hs hmove⟩

/-! ## 2.  What holds while a run goes on -/

/-- The scheduler starts no more steps: one has failed, or a request to stop has come in. -/
def Held (s : State σ) : Prop := s.failure ≠ none ∨ s.stopAsked = true

/-- What holds a run back holds it back for good, and nothing begins. -/
theorem Held.move {c : Choice} (h : Held s) (hmove : Move j s c t) :
    Held t ∧ begun (j.deeds s c t) = [] := by
  cases hmove with
  | ask => exact ⟨.inr rfl, rfl⟩
  | wait _ _ _ _ => exact ⟨h, by rw [deeds_turn]; rfl⟩
  | start _ hfailure hasked _ _ _ =>
    rcases h with h | h
    · exact absurd hfailure h
    · rw [hasked] at h
      exact absurd h (by simp)
  | close _ _ => exact ⟨h, by rw [deeds_turn]; rfl⟩
  | work hstep hstage hadvance =>
    rw [deeds_work hstep hstage]
    refine ⟨?_, (begun_work _ _ _).1⟩
    have hkeeps := hadvance.keeps (mem_busy_of_lookup hstage)
    exact h.imp (fun h => by rwa [hkeeps.failure]) hadvance.stopAsked
  | finish _ _ hstage => exact ⟨h, by rw [deeds_finish hstage]; rfl⟩
  | @fail place step fault _ _ hstage =>
    obtain ⟨failure, hfailure, heq⟩ := failure_fail
      { s with phase := .filling, working := unassign place s.working } place step fault
    rw [deeds_fail hstage, heq]
    exact ⟨.inl hfailure, rfl⟩

/-- **Nothing begins after a failure or a request to stop.** -/
theorem begun_eq_nil_of_way (hs : Held s) (h : Way j s choices history t) : begun history = [] := by
  have hall : Held t ∧ begun history = [] := by
    refine h.invariant (P := fun _ history t => Held t ∧ begun history = []) ?_ ⟨hs, rfl⟩
    rintro choices history t c u ⟨ht, hnone⟩ hmove
    obtain ⟨hu, hmore⟩ := ht.move hmove
    exact ⟨hu, by rw [begun_append, hnone, hmore, List.append_nil]⟩
  exact hall.2

theorem Booked.held_iff (h : Booked j history s) :
    Held s ↔ failures history ≠ [] ∨ s.stopAsked = true := by
  have hfailure : s.failure ≠ none ↔ failures history ≠ [] := by
    have hforemost := h.failure
    cases hf : s.failure with
    | none =>
      rw [hf] at hforemost
      exact ⟨fun hne => absurd rfl hne, fun hne => absurd hforemost hne⟩
    | some f =>
      rw [hf] at hforemost
      simpa using List.ne_nil_of_mem hforemost.1
  exact or_congr_left hfailure

/-- The numbers of the completed steps, in the order in which they were completed. -/
theorem Booked.map_step_completed (h : Booked j history s) :
    s.completed.map (·.step) = (s.done.filterMap j.step?).map (·.id) := by
  have hfst := congrArg (List.map Prod.fst) h.completed
  rwa [List.map_map, List.map_map] at hfst

/-- The labels of the completed steps, in the order in which they were completed. -/
theorem Booked.map_label_completed (h : Booked j history s) :
    s.completed.map Completed.label = ((Run.finished history).filterMap j.step?).map Step.label := by
  have hsnd := congrArg (List.map Prod.snd) h.completed
  rw [h.finished]
  rwa [List.map_map, List.map_map] at hsnd

theorem Booked.mem_completed_iff (h : Booked j history s) {id : StepId} :
    id ∈ s.completed.map (·.step) ↔ ∃ p ∈ s.done, ∃ step, j.step? p = some step ∧ step.id = id := by
  rw [h.map_step_completed]
  simp only [List.mem_map, List.mem_filterMap]
  constructor
  · rintro ⟨step, ⟨p, hp, hstep⟩, hid⟩
    exact ⟨p, hp, step, hstep, hid⟩
  · rintro ⟨p, hp, step, hstep, hid⟩
    exact ⟨step, ⟨p, hp, hstep⟩, hid⟩

/-- **What is completed is closed under what it was made from.** -/
theorem Booked.upstream_completed (hg : j.graph.Sound) (hs : Scheduled j s) (h : Booked j history s)
    {id parent : StepId} (hid : id ∈ s.completed.map (·.step))
    (hparent : parent ∈ j.graph.upstream id) : parent ∈ s.completed.map (·.step) := by
  obtain ⟨p, hp, step, hstep, rfl⟩ := h.mem_completed_iff.1 hid
  obtain ⟨other, hother, rfl, hreads⟩ :=
    (hg.mem_upstream_iff (List.mem_of_getElem? hstep)).1 hparent
  obtain ⟨q, hq⟩ := List.mem_iff_getElem?.1 hother
  have hdone : q ∈ s.done :=
    hs.awaited p (hs.doneStarted p hp) step hstep q ((mem_awaits_iff hg hstep).2 ⟨other, hq, hreads⟩)
  exact h.mem_completed_iff.2 ⟨q, hdone, other, hq, rfl⟩

end Provenance.Run
