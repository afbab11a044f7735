import Provenance.Proofs.Session

/-!
# Joins and the parameters of a task

Assets are joined under names of their own, and a task takes them by these names, in whatever order its
parameters stand.  Which joins there are, which tasks take them and what a refusal says are questions about
names alone:

* `repeated?_eq_none_iff`: a list passes the check for repeated names exactly if it has none.
* `Join.forall₂_of_transform`: the inputs of a draft, parameter for parameter.
* `Join.Misfit`: what a refusal lists.
* `Session.joined_step`: **a join is accepted exactly if it has two sources or more and no name twice; a task
  takes it exactly if its parameters are the names; the step that is declared then has one input for each
  parameter, in order; and otherwise the refusal lists the names that do not fit, on either side.**

A task may declare a parameter twice.  It is given one source then, under both.
-/

namespace Provenance

universe u

variable {α : Type u}

/-! ## Which joins there are -/

theorem repeated?_eq_none_iff {seen names : List String} :
    repeated? seen names = none ↔ names.Nodup ∧ ∀ n ∈ names, n ∉ seen := by
  refine ⟨nodup_of_repeated?, ?_⟩
  rintro ⟨hnodup, hfresh⟩
  induction names generalizing seen with
  | nil => rfl
  | cons n rest ih =>
    obtain ⟨hn, hrest⟩ := List.nodup_cons.1 hnodup
    obtain ⟨hseen, hfresh⟩ := List.forall_mem_cons.1 hfresh
    rw [repeated?, if_neg hseen]
    refine ih hrest fun m hm => ?_
    rw [List.mem_cons, not_or]
    exact ⟨fun heq => hn (heq ▸ hm), hfresh m hm⟩

/-- Two sources or more, no name twice. -/
theorem Join.exists_ofSources_iff {sources : List (String × Asset)} :
    (∃ j, Join.ofSources sources = .ok j) ↔
      2 ≤ sources.length ∧ (sources.map (·.1)).Nodup := by
  constructor
  · rintro ⟨j, hj⟩
    obtain rfl := Session.joinSources hj
    exact ⟨j.two_le, j.distinct⟩
  · rintro ⟨hlength, hnodup⟩
    have hnone : repeated? [] (sources.map (·.1)) = none :=
      repeated?_eq_none_iff.2 ⟨hnodup, fun _ _ => List.not_mem_nil⟩
    refine ⟨⟨sources, hnodup, hlength⟩, ?_⟩
    unfold Join.ofSources
    split
    · rename_i hsome
      rw [hnone] at hsome
      cases hsome
    · rw [dif_pos hlength]

/-! ## Which tasks take a join -/

namespace Join

theorem pairwise_without (xs ys : List String) : (without xs ys).Pairwise (· < ·) :=
  List.pairwise_map.2 (KeySet.ofList (xs.filter (· ∉ ys))).sorted

/-- What a refusal lists, of names that were given and parameters that were declared: those of either side
that the other side lacks, in order and each once. -/
structure Misfit (names params missing unexpected : List String) : Prop where
  missing_sorted : missing.Pairwise (· < ·)
  mem_missing : ∀ x, x ∈ missing ↔ x ∈ names ∧ x ∉ params
  unexpected_sorted : unexpected.Pairwise (· < ·)
  mem_unexpected : ∀ x, x ∈ unexpected ↔ x ∈ params ∧ x ∉ names
  not_both_empty : ¬ (missing = [] ∧ unexpected = [])

/-- Nothing is left over on either side exactly if both have the same names. -/
theorem without_eq_nil_and_iff {names params : List String} :
    without names params = [] ∧ without params names = [] ↔ ∀ x, x ∈ names ↔ x ∈ params := by
  rw [without_eq_nil_iff, without_eq_nil_iff]
  exact ⟨fun h x => ⟨h.1 x, h.2 x⟩, fun h => ⟨fun x => (h x).1, fun x => (h x).2⟩⟩

/-- Names that are not the parameters are a misfit. -/
theorem misfit_without {names params : List String} (h : ¬ ∀ x, x ∈ names ↔ x ∈ params) :
    Misfit names params (without names params) (without params names) where
  missing_sorted := pairwise_without names params
  mem_missing := fun _ => mem_without
  unexpected_sorted := pairwise_without params names
  mem_unexpected := fun _ => mem_without
  not_both_empty := fun hboth => h (without_eq_nil_and_iff.1 hboth)

variable {j : Join} {t : Task} {d : Draft}

/-- A task takes a join, or refuses it for the names that do not fit. -/
theorem transform_cases (j : Join) (t : Task) :
    ((∀ x, x ∈ j.names ↔ x ∈ t.params) ∧ ∃ d, j.transform t = .ok d) ∨
      (¬ (∀ x, x ∈ j.names ↔ x ∈ t.params) ∧ j.transform t =
        .error (.parameterMismatch t.name (without j.names t.params) (without t.params j.names))) := by
  have hempty : ((without j.names t.params).isEmpty && (without t.params j.names).isEmpty) = true ↔
      ∀ x, x ∈ j.names ↔ x ∈ t.params := by
    rw [Bool.and_eq_true, List.isEmpty_iff, List.isEmpty_iff, without_eq_nil_and_iff]
  unfold transform
  dsimp only
  split
  · rename_i htrue
    exact .inl ⟨hempty.1 htrue, _, rfl⟩
  · rename_i hfalse
    exact .inr ⟨fun h => hfalse (hempty.2 h), rfl⟩

theorem exists_transform_iff :
    (∃ d, j.transform t = .ok d) ↔ ∀ x, x ∈ j.names ↔ x ∈ t.params := by
  rcases transform_cases j t with ⟨hsame, hok⟩ | ⟨hnot, herror⟩
  · exact ⟨fun _ => hsame, fun _ => hok⟩
  · refine ⟨?_, fun h => absurd h hnot⟩
    rintro ⟨d, hd⟩
    rw [herror] at hd
    cases hd

theorem misfit_of_transform {fault : Fault} (h : j.transform t = .error fault) :
    ∃ missing unexpected, fault = .parameterMismatch t.name missing unexpected ∧
      Misfit j.names t.params missing unexpected := by
  rcases transform_cases j t with ⟨-, d, hok⟩ | ⟨hnot, herror⟩
  · rw [hok] at h
    cases h
  · rw [herror] at h
    exact ⟨_, _, (Except.error.inj h).symm, misfit_without hnot⟩

/-- The draft is of the task that was given. -/
theorem task_of_transform (h : j.transform t = .ok d) : d.task = t := by
  unfold transform at h
  dsimp only at h
  split at h
  · rw [← Except.ok.inj h]
  · cases h

/-- A draft has an input for each parameter, in order: the source of that name. -/
theorem forall₂_of_transform (h : j.transform t = .ok d) :
    List.Forall₂ (fun p i => i.1 = p ∧ i ∈ j.sources) t.params d.inputs := by
  obtain ⟨hbound, hsources⟩ := bound_of_transform h
  rw [← task_of_transform h, ← hbound.params, List.forall₂_map_left_iff, List.forall₂_same]
  exact fun i hi => ⟨rfl, hsources i hi⟩

end Join

/-! ## The step that is declared -/

namespace Session

/-- The step of a handle runs a task on sources: it has an input for each parameter, in order, and each is
the source of that name. -/
def Applies (s : Session α) (a : Asset) (t : Task) (sources : List (String × Asset)) : Prop :=
  ∃ step, s.step? a = some step ∧ step.task = t ∧
    List.Forall₂ (fun p i => i.1 = p ∧ i ∈ sources) t.params step.inputs

/-- The handle that a draft ends in comes from the step with the inputs of the draft. -/
theorem step?_bind (s : Session α) (d : Draft) (target : Asset) (replaces : Bool) :
    Session.step? { s with catalog := (s.catalog.bind d target replaces).2 }
        (s.catalog.bind d target replaces).1 =
      some ⟨s.catalog.steps.length + 1, d.task, d.inputs, target.bare, replaces⟩ := by
  simp [Session.step?, Catalog.bind, Catalog.step?, Asset.producedBy]

theorem applies_bind {j : Join} {t : Task} {d : Draft} (h : j.transform t = .ok d) (s : Session α)
    (target : Asset) (replaces : Bool) :
    Applies { s with catalog := (s.catalog.bind d target replaces).2 }
      (s.catalog.bind d target replaces).1 t j.sources :=
  ⟨_, step?_bind s d target replaces, Join.task_of_transform h, Join.forall₂_of_transform h⟩

/-- **Joins and the tasks that take them.**  A join is accepted exactly if it has two sources or more and
no name twice.  A task takes it exactly if its parameters are the names, as a set.  Then the draft can
always be ended in place of a producer, and it can be ended in an asset that has none, and in both cases
the step declared has an input for each parameter, in order, which is the source of that name.  Otherwise
the refusal lists the names that are no parameter and the parameters that no source has. -/
theorem joined_step (s : Session α) (sources : List (String × Asset)) (t : Task) :
    ((∃ j, Join.ofSources sources = .ok j) ↔
      2 ≤ sources.length ∧ (sources.map (·.1)).Nodup) ∧
    ∀ j, Join.ofSources sources = .ok j →
      ((∃ d, j.transform t = .ok d) ↔ ∀ x, x ∈ sources.map (·.1) ↔ x ∈ t.params) ∧
      (∀ d, j.transform t = .ok d → ∀ target,
        (s.replace d target).2.Applies (s.replace d target).1 t sources ∧
        ((∃ a s', s.put d target = .ok (a, s') ∧ s'.Applies a t sources) ∨
          ∃ producer ∈ s.catalog.steps,
            s.put d target = .error (.overwrite target.address.text producer.task.name))) ∧
      (∀ fault, j.transform t = .error fault → ∃ missing unexpected,
        fault = .parameterMismatch t.name missing unexpected ∧
          Join.Misfit (sources.map (·.1)) t.params missing unexpected) := by
  refine ⟨Join.exists_ofSources_iff, fun j hj => ?_⟩
  obtain rfl := joinSources hj
  refine ⟨Join.exists_transform_iff, fun d hd target => ⟨applies_bind hd s target true, ?_⟩,
    fun fault hfault => Join.misfit_of_transform hfault⟩
  unfold put Catalog.put
  split
  · rename_i producer hproducer
    exact .inr ⟨producer, Catalog.mem_of_producer? hproducer, rfl⟩
  · exact .inl ⟨_, _, rfl, applies_bind hd s target false⟩

namespace Sales

/-- Orders and customers, under their names. -/
def sources : List (String × Asset) :=
  [("orders", ⟨⟨"orders", "/orders"⟩, none, none, none, 0⟩),
    ("customers", ⟨⟨"customers", "/customers"⟩, none, none, none, 1⟩)]

/-- Reads the customers before and after the orders. -/
def report : Task :=
  .plain "report" ["customers", "orders", "customers"] fun _ => { result := .ok default }

/-- Reads orders, and regions in place of customers. -/
def regional : Task := .plain "regional" ["orders", "regions"] fun _ => { result := .ok default }

/-- Where the report is put. -/
def target : Asset := ⟨⟨"report", "/report"⟩, none, none, none, 2⟩

/-- Orders and customers can be joined; a report that declares the customers twice takes them, and one by
region does not. -/
theorem joined_step_sources :
    ∃ j, Join.ofSources sources = .ok j ∧
      (∃ d, j.transform report = .ok d ∧
        ((start : Session Unit).replace d target).2.Applies
          ((start : Session Unit).replace d target).1 report sources) ∧
      ∃ missing unexpected,
        j.transform regional = .error (.parameterMismatch "regional" missing unexpected) ∧
          Join.Misfit ["orders", "customers"] ["orders", "regions"] missing unexpected := by
  obtain ⟨haccepted, hstep⟩ := joined_step (start : Session Unit) sources report
  obtain ⟨j, hj⟩ := haccepted.2 (by decide)
  obtain ⟨htakes, happlies, -⟩ := hstep j hj
  obtain ⟨d, hd⟩ := htakes.2 (by simp [sources, report, Task.plain])
  obtain ⟨htakes', -, hrefuses⟩ := (joined_step (start : Session Unit) sources regional).2 j hj
  refine ⟨j, hj, ⟨d, hd, (happlies d hd target).1⟩, ?_⟩
  cases hfault : j.transform regional with
  | ok d' =>
    have hregions : "regions" ∈ sources.map (·.1) :=
      (htakes'.1 ⟨d', hfault⟩ "regions").2 (by decide)
    exact absurd hregions (by decide)
  | error fault =>
    obtain ⟨missing, unexpected, rfl, hmisfit⟩ := hrefuses fault hfault
    exact ⟨missing, unexpected, rfl, hmisfit⟩

end Sales

end Session

end Provenance
