import Mathlib.Algebra.BigOperators.Group.Finset.Basic
import Provenance.Proofs.Run.History
import Provenance.Run.Drive

/-!
# A run goes on until it is over

A run neither gets stuck nor goes on for ever, whichever choices are made.

* As long as it is not over, someone can act who is not a request to stop (`Scheduled.exists_act`).  The
  scheduler is filling, or no worker runs, or the one that started first moves or can be picked up.
* Every choice that is not a request to stop takes something off what is left to do (`Scheduled.left_move`).
  A step that has not begun has its inputs to read and a few turns more, a worker has the turns that are
  left at its stage, and the scheduler has those of its phase.  The weights are such that a worker that
  is picked up pays for the turns of the scheduler that follow.

So `Setup.moves` bounds how often anyone acts in a run (`countP_le_moves_of_way`), and the way that always
moves the worker that started first is over after so many moves (`Scheduled.phase_drive`).
-/

namespace Provenance.Run

universe u

variable {σ : Type u} {j : Setup σ} {s t : State σ} {choices : List Choice}
  {history : List (ℕ × Deed)}

/-! ## 1.  Someone can act -/

/-- A worker that has not ended can move. -/
theorem exists_work (place : ℕ) (step : Step) {stage : Stage}
    (hstage : ∀ result, stage ≠ .ended result) : ∃ t, j.work s place step stage = some t := by
  unfold Setup.work
  split
  · exact ⟨_, rfl⟩
  · dsimp only
    split <;> exact ⟨_, rfl⟩
  · dsimp only
    split <;> exact ⟨_, rfl⟩
  · dsimp only
    split <;> exact ⟨_, rfl⟩
  · exact ⟨_, rfl⟩
  · exact absurd rfl (hstage _)

/-- The worker that started first can move or be picked up. -/
theorem Scheduled.exists_next_of_cons (h : Scheduled j s) (hnow : s.phase = .waiting) {p : ℕ}
    {stage : Stage} {rest : List (ℕ × Stage)} (hworking : s.working = (p, stage) :: rest) :
    ∃ t, j.act s s.next = some t := by
  have hlookup : s.working.lookup p = some stage := by
    rw [hworking]
    exact List.lookup_cons_self
  have hplace := h.placed p (h.busyStarted p (mem_busy_of_lookup hlookup))
  have hstep : j.step? p = some j.graph.steps[p] := List.getElem?_eq_getElem hplace
  by_cases hended : ∃ result, stage = .ended result
  · obtain ⟨result, rfl⟩ := hended
    have hnext : s.next = .collect p := by
      unfold State.next
      rw [hnow, hworking]
    refine ⟨j.collect s p j.graph.steps[p] result, ?_⟩
    rw [hnext]
    unfold Setup.act
    dsimp only
    rw [hnow, hstep, hlookup]
  · have hnext : s.next = .work p := by
      unfold State.next
      rw [hnow, hworking]
      cases stage with
      | ended result => exact absurd ⟨result, rfl⟩ hended
      | _ => rfl
    obtain ⟨t, ht⟩ := exists_work (j := j) (s := s) p j.graph.steps[p] (not_exists.1 hended)
    refine ⟨t, ?_⟩
    rw [hnext]
    unfold Setup.act
    dsimp only
    rw [hstep, hlookup]
    exact ht

/-- **A run that is not over goes on** with the worker that started first. -/
theorem Scheduled.exists_next (h : Scheduled j s) (hphase : s.phase ≠ .over) :
    ∃ t, j.act s s.next = some t := by
  cases hnow : s.phase with
  | filling =>
    refine ⟨j.fill s, ?_⟩
    unfold State.next Setup.act
    rw [hnow]
  | waiting =>
    cases hworking : s.working with
    | nil =>
      refine ⟨{ s with phase := .over }, ?_⟩
      unfold State.next Setup.act
      rw [hnow, hworking]
      rfl
    | cons w rest => exact h.exists_next_of_cons hnow hworking
  | _ => exact absurd hnow hphase

theorem State.next_ne_ask (s : State σ) : s.next ≠ .ask := by
  unfold State.next
  split <;> simp

/-- A run that is not over needs no request to stop to go on. -/
theorem Scheduled.exists_act (h : Scheduled j s) (hphase : s.phase ≠ .over) :
    ∃ c t, c ≠ .ask ∧ j.act s c = some t := by
  obtain ⟨t, ht⟩ := h.exists_next hphase
  exact ⟨s.next, t, s.next_ne_ask, ht⟩

/-! ## 2.  What is left to do -/

/-- What is left of a worker at a stage: its own moves, and two turns of the scheduler. -/
def Stage.left : Stage → ℕ
  | .reading _ rest => rest.length + 5
  | .writing _ => 4
  | .noting _ => 3
  | .ended _ => 2

/-- The turns that the scheduler takes before it is over, if it starts nothing more. -/
def Phase.left : Phase → ℕ
  | .filling => 2
  | .waiting => 1
  | .over => 0

/-- The number of inputs of the step at a place. -/
def Setup.inputs (j : Setup σ) (p : ℕ) : ℕ := ((j.step? p).map fun step => step.inputs.length).getD 0

/-- What is left to do for the step at a place. -/
def Setup.leftAt (j : Setup σ) (s : State σ) (p : ℕ) : ℕ :=
  match s.working.lookup p with
  | some stage => stage.left
  | none => if p ∈ s.started then 0 else j.inputs p + 6

/-- What is left to do of a run. -/
def Setup.left (j : Setup σ) (s : State σ) : ℕ :=
  (∑ p ∈ Finset.range j.graph.steps.length, j.leftAt s p) + s.phase.left

/-- What is left at one place goes down, and nothing changes at the others. -/
theorem sum_leftAt_le {p k : ℕ} (hp : p < j.graph.steps.length) (hle : j.leftAt t p + k ≤ j.leftAt s p)
    (hother : ∀ q, q ≠ p → j.leftAt t q = j.leftAt s q) :
    ∑ q ∈ Finset.range j.graph.steps.length, j.leftAt t q + k ≤
      ∑ q ∈ Finset.range j.graph.steps.length, j.leftAt s q := by
  have hmem : p ∈ Finset.range j.graph.steps.length := Finset.mem_range.2 hp
  have hrest : ∑ q ∈ (Finset.range j.graph.steps.length).erase p, j.leftAt t q =
      ∑ q ∈ (Finset.range j.graph.steps.length).erase p, j.leftAt s q :=
    Finset.sum_congr rfl fun q hq => hother q (Finset.ne_of_mem_erase hq)
  have ht := Finset.add_sum_erase _ (j.leftAt t) hmem
  have hs := Finset.add_sum_erase _ (j.leftAt s) hmem
  omega

/-- What is left at a place depends on its worker and on what has started. -/
theorem leftAt_congr {p : ℕ} (hlookup : t.working.lookup p = s.working.lookup p)
    (hstarted : p ∈ t.started ↔ p ∈ s.started) : j.leftAt t p = j.leftAt s p := by
  unfold Setup.leftAt
  rw [hlookup]
  simp only [hstarted]

theorem leftAt_of_lookup {p : ℕ} {stage : Stage} (h : s.working.lookup p = some stage) :
    j.leftAt s p = stage.left := by
  unfold Setup.leftAt
  rw [h]

/-- Nothing is left of a worker that is picked up. -/
theorem leftAt_collect {place : ℕ} (hstarted : place ∈ t.started)
    (hworking : t.working = unassign place s.working) : j.leftAt t place = 0 := by
  unfold Setup.leftAt
  rw [hworking, lookup_unassign, if_pos rfl]
  exact if_pos hstarted

/-- A worker that moves has less left to do. -/
theorem Advance.left_lt {step : Step} {stage stage' : Stage} {rest : State σ}
    (h : Advance j step s stage stage' rest) : stage'.left + 1 ≤ stage.left := by
  cases h with
  | computed _ _ _ _ => split <;> simp [Stage.left]
  | _ => simp [Stage.left]

/-- Picking up a worker pays for the turns that the scheduler takes after it. -/
theorem Scheduled.left_collect (h : Scheduled j s) {place : ℕ} {result : Except Fault Dataset}
    (hphase : s.phase = .waiting) (hstage : s.working.lookup place = some (.ended result))
    (hphase' : t.phase = .filling) (hstarted : t.started = s.started)
    (hworking : t.working = unassign place s.working) : j.left t + 1 ≤ j.left s := by
  have hmem : place ∈ s.started := h.busyStarted place (mem_busy_of_lookup hstage)
  have hself : j.leftAt t place + 2 ≤ j.leftAt s place := by
    rw [leftAt_collect (hstarted ▸ hmem) hworking, leftAt_of_lookup hstage]
    exact Nat.le_refl 2
  have hsum := sum_leftAt_le (h.placed place hmem) hself fun q hq => leftAt_congr
    (by rw [hworking, lookup_unassign, if_neg hq]) (by rw [hstarted])
  unfold Setup.left
  rw [hphase, hphase']
  simp only [Phase.left]
  omega

/-- Starting a step costs the scheduler one turn. -/
theorem Scheduled.left_start (h : Scheduled j s) {place : ℕ} {step : Step}
    (hready : j.nextReady? s = some place) (hstep : j.step? place = some step) :
    j.left (j.start s place step) + 1 ≤ j.left s := by
  have hfresh := (ready_of_nextReady? hready hstep).1
  have hlookup := h.lookup_start hready hstep
  have hplace : place < j.graph.steps.length := (List.getElem?_eq_some_iff.1 hstep).1
  have hself : j.leftAt (j.start s place step) place + 1 ≤ j.leftAt s place := by
    have hnone : s.working.lookup place = none := by
      rw [Option.eq_none_iff_forall_not_mem]
      exact fun stage hstage => hfresh (h.busyStarted place (mem_busy_of_lookup hstage))
    have hplan : (j.plan step s.made).length = step.inputs.length := List.length_map _
    have hinputs : j.inputs place = step.inputs.length := by
      unfold Setup.inputs
      rw [hstep]
      rfl
    rw [leftAt_of_lookup ((hlookup place).trans (if_pos rfl))]
    unfold Setup.leftAt
    rw [hnone, hinputs]
    simp only [hfresh, if_false, Stage.left, hplan]
    exact Nat.le_refl _
  have hsum := sum_leftAt_le hplace hself fun q hq => leftAt_congr ((hlookup q).trans (if_neg hq))
    (by simp [Setup.start, State.note, hq])
  have hphase : (j.start s place step).phase = s.phase := rfl
  unfold Setup.left
  rw [hphase]
  omega

/-- **Whoever acts takes something off what is left**, a request to stop apart. -/
theorem Scheduled.left_move {c : Choice} (h : Scheduled j s) (hmove : Move j s c t) :
    j.left t + (if c = .ask then 0 else 1) ≤ j.left s := by
  cases hmove with
  | ask => exact Nat.le_refl _
  | wait hphase _ _ _ =>
    unfold Setup.left
    rw [hphase]
    exact Nat.le_refl _
  | start _ _ _ _ hready hstep => exact h.left_start hready hstep
  | close hphase _ =>
    unfold Setup.left
    rw [hphase]
    exact Nat.le_refl _
  | @work place step stage stage' rest _ hstage hadvance =>
    have hbusy := mem_busy_of_lookup hstage
    have hkeeps := hadvance.keeps hbusy
    have hself : j.leftAt (rest.moveTo place stage') place + 1 ≤ j.leftAt s place := by
      rw [leftAt_of_lookup ((hadvance.lookup_moveTo place place).trans (if_pos rfl)),
        leftAt_of_lookup hstage]
      exact hadvance.left_lt
    have hsum := sum_leftAt_le (h.placed place (h.busyStarted place hbusy)) hself fun q hq =>
      leftAt_congr ((hadvance.lookup_moveTo place q).trans (if_neg hq)) (by rw [hkeeps.started])
    unfold Setup.left
    rw [hkeeps.phase]
    simp only [reduceCtorEq, if_false]
    omega
  | finish hphase _ hstage => exact h.left_collect hphase hstage rfl rfl rfl
  | fail hphase _ hstage =>
    obtain ⟨failure, -, heq⟩ := failure_fail
      { s with phase := .filling, working := unassign _ s.working } _ _ _
    rw [heq]
    exact h.left_collect hphase hstage rfl rfl rfl

/-- What is left at first is within the bound for the moves of a run. -/
theorem left_initial_le (j : Setup σ) (store : σ) (stopAsked : Bool) :
    j.left (.initial store stopAsked) ≤ j.moves := by
  have hinputs : ∑ p ∈ Finset.range j.graph.steps.length, j.inputs p =
      (j.graph.steps.flatMap (·.inputs)).length := by
    have hmap : (List.range j.graph.steps.length).map j.inputs =
        j.graph.steps.map fun step => step.inputs.length :=
      List.ext_getElem (by simp) fun p _ hp => by
        simp [Setup.inputs, Setup.step?, List.getElem?_eq_getElem (by simpa using hp)]
    rw [List.length_flatMap, ← hmap]
    rfl
  have hleft : ∀ p, j.leftAt (.initial store stopAsked) p = j.inputs p + 6 := fun p => rfl
  unfold Setup.left Setup.moves
  rw [Finset.sum_congr rfl fun p _ => hleft p, Finset.sum_add_distrib, hinputs,
    Finset.sum_const_nat fun _ _ => rfl, Finset.card_range]
  have hphase : (State.initial store stopAsked).phase.left = 2 := rfl
  omega

/-! ## 3.  The end -/

/-- The way of `State.next`, for a number of moves. -/
def Setup.drive (j : Setup σ) : ℕ → State σ → State σ
  | 0, s => s
  | n + 1, s =>
    match j.act s s.next with
    | some s => drive j n s
    | none => s

/-- This way is one of the ways that choices can lead. -/
theorem Setup.reaches_drive (j : Setup σ) {s t : State σ} (n : ℕ) (h : j.Reaches s t) :
    j.Reaches s (j.drive n t) := by
  induction n generalizing t with
  | zero => exact h
  | succ n ih =>
    unfold Setup.drive
    split
    · rename_i next hnext
      exact ih (h.step _ hnext)
    · exact h

/-- **This way leads to the end** in as many moves as there is left to do. -/
theorem Scheduled.phase_drive {n : ℕ} :
    ∀ {s : State σ}, Scheduled j s → j.left s ≤ n → (j.drive n s).phase = .over := by
  induction n with
  | zero =>
    intro s _ hleft
    have hnone : s.phase.left = 0 := Nat.eq_zero_of_add_eq_zero_left (Nat.le_zero.1 hleft)
    show s.phase = .over
    cases hphase : s.phase <;> simp_all [Phase.left]
  | succ n ih =>
    intro s h hleft
    unfold Setup.drive
    split
    · rename_i t hact
      have hless := h.left_move (move_of_act hact)
      rw [if_neg s.next_ne_ask] at hless
      exact ih (h.move (move_of_act hact)) (by omega)
    · rename_i hact
      by_contra hphase
      obtain ⟨t, ht⟩ := h.exists_next hphase
      exact absurd (hact.symm.trans ht) (by simp)

/-- **How often anyone acts in a run is bounded.** -/
theorem countP_le_moves_of_way {store : σ} {stopAsked : Bool}
    (h : Way j (.initial store stopAsked) choices history s) :
    choices.countP (· ≠ .ask) ≤ j.moves := by
  have hall : Scheduled j s ∧ choices.countP (· ≠ .ask) + j.left s ≤
      j.left (.initial store stopAsked) := by
    refine h.invariant (P := fun choices _ s => Scheduled j s ∧
      choices.countP (· ≠ .ask) + j.left s ≤ j.left (.initial store stopAsked)) ?_
      ⟨scheduled_initial j store stopAsked, by simp⟩
    rintro choices history s c t ⟨hs, hle⟩ hmove
    refine ⟨hs.move hmove, ?_⟩
    have hless := hs.left_move hmove
    have hcount : (choices ++ [c]).countP (· ≠ .ask) =
        choices.countP (· ≠ .ask) + if c = .ask then 0 else 1 := by
      rw [List.countP_append, List.countP_singleton]
      by_cases hc : c = .ask <;> simp [hc]
    omega
  exact Nat.le_trans (Nat.le_trans (Nat.le_add_right _ _) hall.2) (left_initial_le j store stopAsked)

end Provenance.Run
