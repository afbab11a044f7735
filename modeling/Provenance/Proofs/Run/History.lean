import Mathlib.Data.List.Nodup
import Provenance.Proofs.Run.Schedule

/-!
# The history of a run

A trace tells when steps start and end, but neither what their workers read, make and write nor what
they fail with.  The history of a run tells that as well: every choice does something for one step or
nothing at all (`Setup.deeds`), and a way through a run is a list of choices together with what they have
done (`Way`).  Ways are what `Setup.Reaches` speaks of, with the choices written down (`exists_way`).

A deed has its place in the history because one choice did it (`Way.split`), so what the state was when
it was done can be asked for.

Some deeds are told apart here: which steps begin (`begun`) and are picked up (`finished`, `failures`),
and what the worker of a step makes (`products`).  What each kind of move adds is stated once, by
`deeds_start`, `deeds_work`, `deeds_finish` and `deeds_fail`.
-/

namespace Provenance.Run

universe u

variable {σ : Type u} {j : Setup σ} {s t : State σ}

/-- Something that is done for a step: it begins with a plan for its inputs, its worker reads an asset
from the storage, gets data from the engine and writes it, and the scheduler picks the worker up. -/
inductive Deed where
  | began (plan : List (String × Source))
  | read (asset : Asset)
  | returned (data : Dataset)
  | wrote (asset : Asset) (data : Dataset)
  | finished
  | failed (fault : Fault)

/-- What a worker does at a stage.  An engine that fails returns nothing, and a storage that refuses
data has not written it. -/
def Setup.deed? (j : Setup σ) (s : State σ) (step : Step) : Stage → Option Deed
  | .reading _ ((_, .memory _) :: _) => none
  | .reading _ ((_, .storage a) :: _) => some (.read a)
  | .reading got [] =>
    match ((j.engine step).perform step got).result with
    | .ok data => some (.returned data)
    | .error _ => none
  | .writing data =>
    match (j.store.write (j.handle step.output) data s.store).1 with
    | .ok _ => some (.wrote (j.handle step.output) data)
    | .error _ => none
  | .noting _ | .ended _ => none

/-- What is done for a step whose worker is new. -/
def Stage.begun? : Stage → Option Deed
  | .reading _ plan => some (.began plan)
  | _ => none

/-- What a choice does, and for which places, when it leads from one state to another. -/
def Setup.deeds (j : Setup σ) (s : State σ) (c : Choice) (t : State σ) : List (ℕ × Deed) :=
  match c with
  | .ask => []
  | .schedule => (t.working.drop s.working.length).filterMap fun w => w.2.begun?.map (w.1, ·)
  | .work place =>
    match j.step? place, s.working.lookup place with
    | some step, some stage => (j.deed? s step stage).toList.map (place, ·)
    | _, _ => []
  | .collect place =>
    match s.working.lookup place with
    | some (.ended (.ok _)) => [(place, .finished)]
    | some (.ended (.error fault)) => [(place, .failed fault)]
    | _ => []

/-- A way through a run: the choices that are made, what they do, and the state that they lead to. -/
inductive Way (j : Setup σ) (s : State σ) : List Choice → List (ℕ × Deed) → State σ → Prop
  | start : Way j s [] [] s
  | go {choices : List Choice} {history : List (ℕ × Deed)} {t u : State σ} (c : Choice) :
      Way j s choices history t → j.act t c = some u →
        Way j s (choices ++ [c]) (history ++ j.deeds t c u) u

theorem Way.reaches {choices : List Choice} {history : List (ℕ × Deed)}
    (h : Way j s choices history t) : j.Reaches s t := by
  induction h with
  | start => exact .refl s
  | go c _ hact ih => exact ih.step c hact

/-- A way that goes on is a way. -/
theorem Way.trans {choices more : List Choice} {history further : List (ℕ × Deed)} {u : State σ}
    (h : Way j s choices history t) (hon : Way j t more further u) :
    Way j s (choices ++ more) (history ++ further) u := by
  induction hon with
  | start => rwa [List.append_nil, List.append_nil]
  | go c _ hact ih =>
    rw [← List.append_assoc, ← List.append_assoc]
    exact ih.go c hact

/-- Whatever can be reached is reached on some way. -/
theorem exists_way (h : j.Reaches s t) : ∃ choices history, Way j s choices history t := by
  induction h with
  | refl => exact ⟨[], [], .start⟩
  | step c _ hact ih =>
    obtain ⟨choices, history, hway⟩ := ih
    exact ⟨_, _, hway.go c hact⟩

/-- **What every move keeps holds along a way.** -/
theorem Way.invariant {P : List Choice → List (ℕ × Deed) → State σ → Prop}
    (hmove : ∀ choices history t c u, P choices history t → Move j t c u →
      P (choices ++ [c]) (history ++ j.deeds t c u) u)
    {choices : List Choice} {history : List (ℕ × Deed)} (h : Way j s choices history t)
    (hs : P [] [] s) : P choices history t := by
  induction h with
  | start => exact hs
  | go c _ hact ih => exact hmove _ _ _ c _ ih (move_of_act hact)

/-! ## Kinds of deeds -/

/-- The places that begin, in their order. -/
def begun (history : List (ℕ × Deed)) : List ℕ :=
  history.filterMap fun
    | (p, .began _) => some p
    | _ => none

/-- The places that are picked up with data, in their order. -/
def finished (history : List (ℕ × Deed)) : List ℕ :=
  history.filterMap fun
    | (p, .finished) => some p
    | _ => none

/-- The places that are picked up with a fault, in their order. -/
def failures (history : List (ℕ × Deed)) : List (ℕ × Fault) :=
  history.filterMap fun
    | (p, .failed fault) => some (p, fault)
    | _ => none

/-- Whether a deed gives data: the engine returns it, or it is written. -/
def Deed.isProduct : Deed → Bool
  | .returned _ | .wrote _ _ => true
  | _ => false

/-- What the worker of a place makes. -/
def products (history : List (ℕ × Deed)) (p : ℕ) : List Deed :=
  (history.filter fun d => d.1 == p && d.2.isProduct).map (·.2)

theorem mem_products {history : List (ℕ × Deed)} {p : ℕ} {d : Deed} :
    d ∈ products history p ↔ (p, d) ∈ history ∧ d.isProduct = true := by
  unfold products
  simp only [List.mem_map, List.mem_filter, Bool.and_eq_true, beq_iff_eq]
  constructor
  · rintro ⟨⟨q, e⟩, ⟨he, rfl, hproduct⟩, rfl⟩
    exact ⟨he, hproduct⟩
  · rintro ⟨hd, hproduct⟩
    exact ⟨(p, d), ⟨hd, rfl, hproduct⟩, rfl⟩

section

variable (history more : List (ℕ × Deed))

@[simp] theorem begun_append : begun (history ++ more) = begun history ++ begun more :=
  List.filterMap_append

@[simp] theorem finished_append : finished (history ++ more) = finished history ++ finished more :=
  List.filterMap_append

@[simp] theorem failures_append : failures (history ++ more) = failures history ++ failures more :=
  List.filterMap_append

@[simp] theorem products_append (p : ℕ) :
    products (history ++ more) p = products history p ++ products more p := by
  unfold products
  rw [List.filter_append, List.map_append]

end

/-! ## What moves do -/

/-- A turn of the scheduler that starts nothing does nothing. -/
theorem deeds_turn (phase : Phase) (stopped : Bool) :
    j.deeds s .schedule { s with phase, stopped } = [] := by
  unfold Setup.deeds
  dsimp only
  rw [List.drop_length, List.filterMap_nil]

theorem deeds_start (place : ℕ) (step : Step) :
    j.deeds s .schedule (j.start s place step) = [(place, .began (j.plan step s.made))] := by
  have hworking : (j.start s place step).working =
      s.working ++ [(place, .reading .empty (j.plan step s.made))] := rfl
  unfold Setup.deeds
  dsimp only
  rw [hworking, List.drop_left]
  rfl

theorem deeds_work {place : ℕ} {step : Step} {stage : Stage} (hstep : j.step? place = some step)
    (hstage : s.working.lookup place = some stage) :
    j.deeds s (.work place) t = (j.deed? s step stage).toList.map (place, ·) := by
  unfold Setup.deeds
  dsimp only
  rw [hstep, hstage]

theorem deeds_finish {place : ℕ} {data : Dataset}
    (hstage : s.working.lookup place = some (.ended (.ok data))) :
    j.deeds s (.collect place) t = [(place, .finished)] := by
  unfold Setup.deeds
  dsimp only
  rw [hstage]

theorem deeds_fail {place : ℕ} {fault : Fault}
    (hstage : s.working.lookup place = some (.ended (.error fault))) :
    j.deeds s (.collect place) t = [(place, .failed fault)] := by
  unfold Setup.deeds
  dsimp only
  rw [hstage]

section

variable {step : Step} {got : Inputs} {data : Dataset} {store : σ}

theorem deed?_of_computed (h : ((j.engine step).perform step got).result = .ok data) :
    j.deed? s step (.reading got []) = some (.returned data) := by
  unfold Setup.deed?
  dsimp only
  rw [h]

theorem deed?_of_aborted {cause : TaskFailure}
    (h : ((j.engine step).perform step got).result = .error cause) :
    j.deed? s step (.reading got []) = none := by
  unfold Setup.deed?
  dsimp only
  rw [h]

theorem deed?_of_wrote (h : j.store.write (j.handle step.output) data s.store = (.ok (), store)) :
    j.deed? s step (.writing data) = some (.wrote (j.handle step.output) data) := by
  unfold Setup.deed?
  dsimp only
  rw [h]

theorem deed?_of_refused {fault : Fault}
    (h : j.store.write (j.handle step.output) data s.store = (.error fault, store)) :
    j.deed? s step (.writing data) = none := by
  unfold Setup.deed?
  dsimp only
  rw [h]

end

/-- A worker reads, gets data from the engine or writes. -/
theorem deed?_cases {step : Step} {stage : Stage} {d : Deed} (h : j.deed? s step stage = some d) :
    (∃ a, d = .read a) ∨ (∃ data, d = .returned data) ∨ ∃ a data, d = .wrote a data := by
  unfold Setup.deed? at h
  split at h
  · exact absurd h (by simp)
  · exact .inl ⟨_, (Option.some.inj h).symm⟩
  · split at h
    · exact .inr (.inl ⟨_, (Option.some.inj h).symm⟩)
    · exact absurd h (by simp)
  · split at h
    · exact .inr (.inr ⟨_, _, (Option.some.inj h).symm⟩)
    · exact absurd h (by simp)
  · exact absurd h (by simp)
  · exact absurd h (by simp)

/-- A move does one thing at most. -/
theorem deeds_of_move {c : Choice} (h : Move j s c t) :
    j.deeds s c t = [] ∨ ∃ d, j.deeds s c t = [d] := by
  cases h with
  | ask => exact .inl rfl
  | wait _ _ _ _ => exact .inl (deeds_turn _ _)
  | start _ _ _ _ _ _ => exact .inr ⟨_, deeds_start _ _⟩
  | close _ _ => exact .inl (deeds_turn _ _)
  | @work place step stage stage' rest hstep hstage _ =>
    rw [deeds_work hstep hstage]
    cases j.deed? s step stage with
    | none => exact .inl rfl
    | some d => exact .inr ⟨_, rfl⟩
  | finish _ _ hstage => exact .inr ⟨_, deeds_finish hstage⟩
  | fail _ _ hstage => exact .inr ⟨_, deeds_fail hstage⟩

/-- **Each deed is done by one choice**, between the way to it and the way on from it. -/
theorem Way.split {choices : List Choice} {history : List (ℕ × Deed)}
    (h : Way j s choices history t) {before after : List (ℕ × Deed)} {d : ℕ × Deed}
    (hsplit : history = before ++ d :: after) :
    ∃ u c v choices₁ choices₂, Way j s choices₁ before u ∧ Move j u c v ∧ j.deeds u c v = [d] ∧
      Way j v choices₂ after t := by
  induction h generalizing after with
  | start => exact absurd hsplit (by simp)
  | @go choices history t u c hway hact ih =>
    have hmove := move_of_act hact
    rcases deeds_of_move hmove with hnone | ⟨e, hone⟩
    · rw [hnone, List.append_nil] at hsplit
      obtain ⟨w, c', v, choices₁, choices₂, hto, hd, hdeeds, hon⟩ := ih hsplit
      have hmore := hon.go c hact
      rw [hnone, List.append_nil] at hmore
      exact ⟨w, c', v, choices₁, _, hto, hd, hdeeds, hmore⟩
    · rw [hone] at hsplit
      rcases List.eq_nil_or_concat after with rfl | ⟨init, last, rfl⟩
      · obtain ⟨rfl, rfl⟩ := List.append_singleton_inj.1 hsplit
        exact ⟨t, c, u, choices, [], hway, hmove, hone, .start⟩
      · rw [List.concat_eq_append, ← List.cons_append, ← List.append_assoc] at hsplit
        obtain ⟨hrest, rfl⟩ := List.append_singleton_inj.1 hsplit
        obtain ⟨w, c', v, choices₁, choices₂, hto, hd, hdeeds, hon⟩ := ih hrest
        have hmore := hon.go c hact
        rw [hone] at hmore
        exact ⟨w, c', v, choices₁, _, hto, hd, hdeeds, by rwa [List.concat_eq_append]⟩

/-- A worker neither begins a step nor picks one up. -/
theorem begun_work (place : ℕ) (step : Step) (stage : Stage) :
    begun ((j.deed? s step stage).toList.map (place, ·)) = [] ∧
      finished ((j.deed? s step stage).toList.map (place, ·)) = [] ∧
      failures ((j.deed? s step stage).toList.map (place, ·)) = [] := by
  cases hdeed : j.deed? s step stage with
  | none => exact ⟨rfl, rfl, rfl⟩
  | some d => rcases deed?_cases hdeed with ⟨a, rfl⟩ | ⟨data, rfl⟩ | ⟨a, data, rfl⟩ <;>
      exact ⟨rfl, rfl, rfl⟩

end Provenance.Run
