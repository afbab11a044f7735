import Provenance.Proofs.Run.Progress
import Provenance.Proofs.Waiting

/-!
# The scheduler keeps a queue

What may happen in a run is said of a scheduler that asks each time which step is ready
(`Setup.nextReady?`).  The scheduler that runs keeps counts and a queue.  Both are the same: the queue
holds exactly what is ready (`Queued.Told`), so every choice is open to both and leads both to the same
state (`Queued.Told.act`).

* `state_foldlM_act`: whatever the choices are, with the queue they come to what they come to without.
* `Setup.exists_run`: so what is known of all runs is known of the one that `Setup.run` makes, and it is
  over when `Setup.run` returns.

The first step of the queue is always one that can start (`Queued.Told.fill`), and no count is ever lowered
below zero (`Queued.Told.release`).
-/

namespace Provenance.Run

universe u

variable {σ : Type u} {j : Setup σ} {s t : State σ} {d d' : Queued σ}

/-! ## Who waits for whom -/

theorem waits_of_step? {p : ℕ} {step : Step} (h : j.step? p = some step) : j.waits p = j.awaits step := by
  unfold Setup.waits
  rw [h]
  rfl

theorem nodup_awaits (hg : j.graph.Sound) (step : Step) : (j.awaits step).Nodup := by
  refine (hg.nodup_upstream step.id).filterMap fun a b k ha hb => ?_
  obtain ⟨x, hx, rfl⟩ := (hg.position?_eq_some_iff).1 ha
  obtain ⟨y, hy, rfl⟩ := (hg.position?_eq_some_iff).1 hb
  rw [Option.some.inj (hx.symm.trans hy)]

theorem nodup_waits (hg : j.graph.Sound) (p : ℕ) : (j.waits p).Nodup := by
  unfold Setup.waits
  cases j.step? p with
  | none => exact List.nodup_nil
  | some step => exact nodup_awaits hg step

theorem mem_dependents {p q : ℕ} :
    q ∈ j.dependents p ↔ ∃ k ∈ List.range j.graph.steps.length, k = q ∧ p ∈ j.waits k := by
  unfold Setup.dependents
  rw [List.mem_filter, decide_eq_true_eq]
  constructor
  · rintro ⟨hq, hp⟩
    exact ⟨q, hq, rfl, hp⟩
  · rintro ⟨k, hk, rfl, hp⟩
    exact ⟨hk, hp⟩

/-! ## What the queue tells -/

/-- The queue tells the truth about the steps that have started and those that are done. -/
def Queued.Told (j : Setup σ) (d : Queued σ) : Prop :=
  d.queue.Tells id j.waits (List.range j.graph.steps.length) d.state.started d.state.done

namespace Queued

theorem told_initial (j : Setup σ) (store : σ) (stopAsked : Bool) :
    (initial j store stopAsked).Told j := by
  have hplaces : ((List.range j.graph.steps.length).map id).Nodup := by
    rw [List.map_id]
    exact List.nodup_range
  refine Order.Waiting.tells_of_start hplaces (fun p => .rfl) ?_
  have hkeys : ((List.range j.graph.steps.length).map fun p => (p, (j.waits p).length)).map (·.1) =
      List.range j.graph.steps.length := by
    rw [List.map_map]
    exact List.map_id _
  have hsub := (List.filter_sublist (p := (·.2 == 0))
    (l := (List.range j.graph.steps.length).map fun p => (p, (j.waits p).length))).map (·.1)
  rw [hkeys] at hsub
  exact List.pairwise_lt_range.sublist hsub

/-- The queue holds what is ready. -/
theorem Told.mem_ready_iff (h : d.Told j) {p : ℕ} : p ∈ d.queue.ready ↔ j.isReady d.state p = true := by
  rw [h.ready, isReady_iff]
  refine and_congr_right fun _ => ?_
  constructor
  · rintro ⟨k, hk, rfl, hdone⟩
    have hplace : k < j.graph.steps.length := List.mem_range.1 hk
    have hstep : j.step? k = some j.graph.steps[k] := List.getElem?_eq_getElem hplace
    exact ⟨_, hstep, waits_of_step? hstep ▸ hdone⟩
  · rintro ⟨step, hstep, hdone⟩
    exact ⟨p, List.mem_range.2 (List.getElem?_eq_some_iff.1 hstep).1, rfl, waits_of_step? hstep ▸ hdone⟩

/-- **The first step of the queue is the first one that is ready.** -/
theorem Told.nextReady?_eq (h : d.Told j) : j.nextReady? d.state = d.queue.ready.head? := by
  cases hw : d.queue.ready with
  | nil =>
    refine List.find?_eq_none.2 fun p _ hready => ?_
    have hmem := h.mem_ready_iff.2 hready
    rw [hw] at hmem
    exact absurd hmem List.not_mem_nil
  | cons p ready =>
    have hmem : p ∈ d.queue.ready := hw ▸ List.mem_cons_self
    obtain ⟨-, k, hk, rfl, -⟩ := (h.ready p).1 hmem
    refine List.find?_range_eq_some.2 ⟨h.mem_ready_iff.1 hmem, hk, fun q hq => ?_⟩
    rw [Bool.not_eq_true']
    by_contra hready
    have hle := h.le_of_ready hw (h.mem_ready_iff.2 (by simpa using hready))
    exact absurd hq (Nat.not_lt.2 hle)

/-- What the queue tells depends on what is started and done alone. -/
theorem Told.congr (h : d.Told j) (hstarted : t.started = d.state.started)
    (hdone : t.done = d.state.done) : Told j ⟨t, d.queue⟩ := by
  unfold Told
  rw [hstarted, hdone]
  exact h

/-! ## Filling and picking up -/

/-- **The queue starts the step that the scheduler would look for.** -/
theorem Told.fill (h : d.Told j) : (d.fill j).state = j.fill d.state ∧ (d.fill j).Told j := by
  have hnext := h.nextReady?_eq
  unfold Queued.fill Setup.fill
  dsimp only
  split
  · exact ⟨rfl, h.congr rfl rfl⟩
  · split
    · exact ⟨rfl, h.congr rfl rfl⟩
    · rw [hnext]
      cases hw : d.queue.ready with
      | nil => exact ⟨rfl, h.congr rfl rfl⟩
      | cons p ready =>
        rw [hw] at hnext
        obtain ⟨-, step, hstep, -⟩ := step?_of_nextReady? hnext
        dsimp only [List.head?_cons]
        rw [hstep]
        exact ⟨rfl, Order.Waiting.Tells.take h hw⟩

/-- **The data of a step releases those that wait for it.** -/
theorem Told.release (hg : j.graph.Sound) (hs : Scheduled j d.state) (h : d.Told j) {place : ℕ}
    (hbusy : place ∈ d.state.busy) (hstarted : t.started = d.state.started)
    (hdone : t.done = d.state.done ++ [place]) :
    Told j ⟨t, (j.dependents place).foldl Order.Waiting.lower d.queue⟩ ∧
      (j.dependents place).foldlM Order.Waiting.lower? d.queue =
        some ((j.dependents place).foldl Order.Waiting.lower d.queue) := by
  unfold Told
  rw [hstarted, hdone]
  refine Order.Waiting.Tells.lower h ?_ (fun p _ => nodup_waits hg p) (hs.apart place hbusy) ?_
    (List.nodup_range.filter _) fun x => mem_dependents
  · rw [List.map_id]
    exact List.nodup_range
  · -- a step that has started waits for none any more
    intro p hp hwaits hmem
    have hplace : p < j.graph.steps.length := List.mem_range.1 hp
    have hstep : j.step? p = some j.graph.steps[p] := List.getElem?_eq_getElem hplace
    rw [waits_of_step? hstep] at hwaits
    exact hs.apart place hbusy (hs.awaited p hmem _ hstep place hwaits)

/-- What changes neither who has started nor who is done leaves the queue as it is. -/
theorem Told.of_kept (h : d.Told j) {next : Option (State σ)}
    (hkept : ∀ t, next = some t → t.started = d.state.started ∧ t.done = d.state.done) :
    (next.map fun t => (⟨t, d.queue⟩ : Queued σ)).map (·.state) = next ∧
      ∀ d', (next.map fun t => (⟨t, d.queue⟩ : Queued σ)) = some d' → d'.Told j := by
  refine ⟨by rw [Option.map_map]; exact Option.map_id', fun d' hd' => ?_⟩
  obtain ⟨t, ht, rfl⟩ := Option.map_eq_some_iff.1 hd'
  obtain ⟨hstarted, hdone⟩ := hkept t ht
  exact h.congr hstarted hdone

/-- **Every choice leads to the same state with the queue and without**, and the queue goes on telling
the truth. -/
theorem Told.act (hg : j.graph.Sound) (hs : Scheduled j d.state) (h : d.Told j) (c : Choice) :
    (d.act j c).map (·.state) = j.act d.state c ∧ ∀ d', d.act j c = some d' → d'.Told j := by
  unfold Queued.act
  split
  · rename_i hphase
    obtain ⟨hstate, htold⟩ := h.fill
    have hact : j.act d.state .schedule = some (j.fill d.state) := by
      unfold Setup.act
      rw [hphase]
    refine ⟨by rw [hact, ← hstate]; rfl, fun d' hd' => ?_⟩
    obtain rfl := Option.some.inj hd'
    exact htold
  · rename_i place
    refine ⟨by rw [Option.map_map]; exact Option.map_id', fun d' hd' => ?_⟩
    obtain ⟨t, ht, rfl⟩ := Option.map_eq_some_iff.1 hd'
    cases move_of_act ht with
    | finish _ _ hstage =>
      rw [hstage]
      refine (h.release hg hs (mem_busy_of_lookup hstage) ?_ ?_).1
      · rfl
      · rfl
    | fail _ _ hstage =>
      rw [hstage, fail_eq]
      exact h.congr rfl rfl
  · rename_i hcollect hfilling
    refine h.of_kept fun t ht => ?_
    cases move_of_act ht with
    | ask => exact ⟨rfl, rfl⟩
    | wait hphase _ _ _ => exact absurd hphase (hfilling rfl)
    | start hphase _ _ _ _ _ => exact absurd hphase (hfilling rfl)
    | close _ _ => exact ⟨rfl, rfl⟩
    | work _ hstage hadvance =>
      have hkeeps := hadvance.keeps (mem_busy_of_lookup hstage)
      exact ⟨hkeeps.started, hkeeps.done⟩
    | finish _ _ _ => exact absurd rfl (hcollect _)
    | fail _ _ _ => exact absurd rfl (hcollect _)

/-! ## Runs with the queue -/

/-- With the queue a sequence of choices comes to what it comes to without. -/
theorem Told.foldlM_act (hg : j.graph.Sound) (choices : List Choice) :
    ∀ {d : Queued σ}, Scheduled j d.state → d.Told j →
      (choices.foldlM (Queued.act j) d).map (·.state) = choices.foldlM j.act d.state ∧
        ∀ d', choices.foldlM (Queued.act j) d = some d' → d'.Told j := by
  induction choices with
  | nil =>
    refine fun _ h => ⟨rfl, fun d' hd' => ?_⟩
    obtain rfl := Option.some.inj hd'
    exact h
  | cons c choices ih =>
    intro d hs h
    obtain ⟨hstate, htold⟩ := h.act hg hs c
    rw [List.foldlM_cons, List.foldlM_cons, ← hstate]
    cases hact : d.act j c with
    | none => exact ⟨rfl, fun d' hd' => absurd hd' (by simp)⟩
    | some d' =>
      rw [hact] at hstate
      exact ih (hs.move (move_of_act hstate.symm)) (htold d' hact)

/-- The way of `State.next` is the same with the queue and without. -/
theorem Told.driveQueued (hg : j.graph.Sound) (n : ℕ) :
    ∀ {d : Queued σ}, Scheduled j d.state → d.Told j →
      (j.driveQueued n d).state = j.drive n d.state := by
  induction n with
  | zero => exact fun _ _ => rfl
  | succ n ih =>
    intro d hs h
    obtain ⟨hstate, htold⟩ := h.act hg hs d.state.next
    unfold Setup.driveQueued Setup.drive
    rw [← hstate]
    cases hact : d.act j d.state.next with
    | none => rfl
    | some d' =>
      rw [hact] at hstate
      exact ih (hs.move (move_of_act hstate.symm)) (htold d' hact)

end Queued

/-- **Whatever choices are made, the queue makes no difference**: each is open with it exactly if it is open
without, both come to the same state, and the first step of the queue is then the one that is next. -/
theorem state_foldlM_act (hg : j.graph.Sound) (store : σ) (stopAsked : Bool) (choices : List Choice) :
    (choices.foldlM (Queued.act j) (.initial j store stopAsked)).map (·.state) =
        choices.foldlM j.act (.initial store stopAsked) ∧
      ∀ d, choices.foldlM (Queued.act j) (.initial j store stopAsked) = some d →
        d.queue.ready.head? = j.nextReady? d.state := by
  obtain ⟨hstate, htold⟩ := Queued.Told.foldlM_act hg choices (scheduled_initial j store stopAsked)
    (Queued.told_initial j store stopAsked)
  exact ⟨hstate, fun d hd => (htold d hd).nextReady?_eq.symm⟩

/-- **The run that `Setup.run` makes is one of all runs, and it is over.** -/
theorem Setup.exists_run (hg : j.graph.Sound) (store : σ) (stopAsked : Bool) :
    ∃ s, j.Reaches (.initial store stopAsked) s ∧ s.phase = .over ∧
      j.run store stopAsked = ⟨j.outcome s, s.store, s.log⟩ := by
  have hscheduled := scheduled_initial j store stopAsked
  refine ⟨j.drive j.moves (.initial store stopAsked), j.reaches_drive _ (.refl _),
    hscheduled.phase_drive (left_initial_le j store stopAsked), ?_⟩
  have hstate := Queued.Told.driveQueued hg j.moves hscheduled (Queued.told_initial j store stopAsked)
  unfold Setup.run
  rw [hstate]
  rfl

end Provenance.Run
