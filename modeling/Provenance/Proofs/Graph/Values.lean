import Provenance.Proofs.Graph.Sound

/-!
# What addresses denote

Read backward, a graph says what the data at every address is: what was there at first, where no step
writes, and otherwise what the body of the producer makes of the data of its inputs (`Denotes`).  No
order of execution, no storage and no kind of target enters this.

* `Denotes.unique`: an address denotes one dataset at most.
* `Denotes.of_inputs`: inputs under the parameters of the producer, each with what its asset denotes,
  are what the producer is to be applied to.
* `denotes_retarget_iff`: binding the steps to targets of other kinds changes nothing.
-/

namespace Provenance

/-- The inputs of a task that give one value to each parameter. -/
def Task.inputsOf (t : Task) (value : String → Dataset) : Inputs :=
  ⟨t.params.eraseDups.map fun p => (p, value p)⟩

namespace Graph

/-- The data at an address, evaluated along the lineage.  `initial` is what is there at first. -/
inductive Denotes (g : Graph) (initial : Address → Option Dataset) : Address → Dataset → Prop
  | source {a : Address} {d : Dataset} : g.producer? a = none → initial a = some d →
      Denotes g initial a d
  | made {a : Address} {s : Step} {d : Dataset} (value : String → Dataset) :
      g.producer? a = some s → (∀ i ∈ s.inputs, Denotes g initial i.2.address (value i.1)) →
      (s.task.body (s.task.inputsOf value)).result = .ok d → Denotes g initial a d

section

variable {g : Graph} (hg : g.Sound) {initial : Address → Option Dataset}

include hg

/-- The inputs of a step are the values of its parameters, each of which stands for an input. -/
theorem inputsOf_congr {s : Step} (hs : s ∈ g.steps) {value value' : String → Dataset}
    (h : ∀ i ∈ s.inputs, value i.1 = value' i.1) : s.task.inputsOf value = s.task.inputsOf value' := by
  unfold Task.inputsOf
  congr 1
  refine List.map_congr_left fun p hp => ?_
  rw [List.mem_eraseDups, ← (hg.bound s hs).params] at hp
  obtain ⟨i, hi, rfl⟩ := List.mem_map.1 hp
  rw [h i hi]

/-- **An address denotes one dataset at most.** -/
theorem Denotes.unique {a : Address} {d d' : Dataset} (h : g.Denotes initial a d)
    (h' : g.Denotes initial a d') : d = d' := by
  induction h generalizing d' with
  | source hnone hinitial =>
    cases h' with
    | source _ hinitial' =>
      rw [hinitial] at hinitial'
      exact Option.some.inj hinitial'
    | made _ hproducer _ _ =>
      rw [hnone] at hproducer
      exact absurd hproducer (by simp)
  | @made a s d value hproducer _ hresult ih =>
    cases h' with
    | source hnone _ =>
      rw [hproducer] at hnone
      exact absurd hnone (by simp)
    | made value' hproducer' hinputs' hresult' =>
      rw [hproducer] at hproducer'
      obtain rfl := Option.some.inj hproducer'
      have hs : s ∈ g.steps := ((hg.producer?_eq_some_iff).1 hproducer).1
      rw [inputsOf_congr hg hs fun i hi => ih i hi (hinputs' i hi), hresult'] at hresult
      exact (Except.ok.inj hresult).symm

/-- The output of a step denotes what its body makes of what its inputs denote. -/
theorem Denotes.exists_value {s : Step} (hs : s ∈ g.steps) {d : Dataset}
    (h : g.Denotes initial s.output.address d) : ∃ value,
      (∀ i ∈ s.inputs, g.Denotes initial i.2.address (value i.1)) ∧
      (s.task.body (s.task.inputsOf value)).result = .ok d := by
  cases h with
  | source hnone _ =>
    rw [hg.producer?_output hs] at hnone
    exact absurd hnone (by simp)
  | made value hproducer hinputs hresult =>
    rw [hg.producer?_output hs] at hproducer
    obtain rfl := Option.some.inj hproducer
    exact ⟨value, hinputs, hresult⟩

/-- One entry for each parameter of a step, with what an input under that parameter denotes. -/
theorem exists_value_of_inputs {s : Step} (hs : s ∈ g.steps) {got : Inputs}
    (hnames : got.names = s.task.params.eraseDups)
    (hgot : ∀ e ∈ got.entries, ∃ i ∈ s.inputs, i.1 = e.1 ∧ g.Denotes initial i.2.address e.2) :
    ∃ value, got = s.task.inputsOf value ∧
      ∀ i ∈ s.inputs, g.Denotes initial i.2.address (value i.1) := by
  let value : String → Dataset := fun p => (got.entries.lookup p).getD default
  have hvalue : ∀ p data, got.entries.lookup p = some data → value p = data := by
    intro p data hdata
    show (got.entries.lookup p).getD default = data
    rw [hdata, Option.getD_some]
  have hkeys : got.entries.map (·.1) = s.task.params.eraseDups := hnames
  have hentries : got = s.task.inputsOf value := by
    have hmap := map_lookup_keys (hkeys ▸ nodup_eraseDups) value hvalue
    unfold Task.inputsOf
    rw [← hkeys, hmap]
  refine ⟨value, hentries, fun i hi => ?_⟩
  have hparam : i.1 ∈ got.entries.map (·.1) := by
    rw [hkeys, List.mem_eraseDups, ← (hg.bound s hs).params]
    exact List.mem_map.2 ⟨i, hi, rfl⟩
  obtain ⟨data, hdata⟩ := exists_lookup_of_mem_keys hparam
  obtain ⟨other, hother, hsame, hdenotes⟩ := hgot _ (mem_of_lookup hdata)
  rw [hvalue i.1 data hdata]
  -- a parameter is given one asset, wherever it stands
  have hboth := (hg.bound s hs).single other hother
  rw [hsame, (hg.bound s hs).single i hi] at hboth
  rwa [← Option.some.inj hboth] at hdenotes

/-- **What a producer is to be applied to**: what it makes of such entries is what its output denotes. -/
theorem Denotes.of_inputs {s : Step} (hs : s ∈ g.steps) {got : Inputs}
    (hnames : got.names = s.task.params.eraseDups)
    (hgot : ∀ e ∈ got.entries, ∃ i ∈ s.inputs, i.1 = e.1 ∧ g.Denotes initial i.2.address e.2)
    {d : Dataset} (hresult : (s.task.body got).result = .ok d) :
    g.Denotes initial s.output.address d := by
  obtain ⟨value, rfl, hinputs⟩ := exists_value_of_inputs hg hs hnames hgot
  exact .made value (hg.producer?_output hs) hinputs hresult

/-- And it makes that of them whenever its output denotes anything. -/
theorem Denotes.result_of_inputs {s : Step} (hs : s ∈ g.steps) {d : Dataset}
    (h : g.Denotes initial s.output.address d) {got : Inputs}
    (hnames : got.names = s.task.params.eraseDups)
    (hgot : ∀ e ∈ got.entries, ∃ i ∈ s.inputs, i.1 = e.1 ∧ g.Denotes initial i.2.address e.2) :
    (s.task.body got).result = .ok d := by
  obtain ⟨value, rfl, hinputs⟩ := exists_value_of_inputs hg hs hnames hgot
  obtain ⟨value', hinputs', hresult⟩ := h.exists_value hg hs
  rwa [inputsOf_congr hg hs fun i hi => (hinputs i hi).unique hg (hinputs' i hi)]

omit hg in
/-- What an address denotes rests on what is there at first where no step writes. -/
theorem Denotes.congr {initial' : Address → Option Dataset}
    (hsame : ∀ a, g.producer? a = none → initial' a = initial a) {a : Address} {d : Dataset}
    (h : g.Denotes initial a d) : g.Denotes initial' a d := by
  induction h with
  | source hnone hinitial => exact .source hnone ((hsame _ hnone).trans hinitial)
  | made value hproducer _ hresult ih => exact .made value hproducer ih hresult

end

/-! ## Other kinds of targets -/

end Graph

/-- The step with its task bound to a target of another kind. -/
def Step.retarget (s : Step) (kind : TargetKind) : Step :=
  { s with task := { s.task with target := { s.task.target with kind } } }

namespace Graph

/-- The graph with its steps bound to targets of other kinds. -/
def retarget (g : Graph) (kinds : StepId → TargetKind) : Graph :=
  { g with steps := g.steps.map fun s => s.retarget (kinds s.id) }

variable {g : Graph} {kinds : StepId → TargetKind}

theorem mem_steps_retarget {s : Step} :
    s ∈ (g.retarget kinds).steps ↔ ∃ t ∈ g.steps, s = t.retarget (kinds t.id) := by
  unfold retarget
  simp only [List.mem_map, eq_comm]

/-- A sound graph stays sound with targets of other kinds. -/
theorem Sound.retarget (hg : g.Sound) (kinds : StepId → TargetKind) : (g.retarget kinds).Sound := by
  have hids : (g.retarget kinds).steps.map (·.id) = g.steps.map (·.id) := by
    unfold Graph.retarget
    rw [List.map_map]
    rfl
  have houtputs : (g.retarget kinds).steps.map (·.output.address) =
      g.steps.map (·.output.address) := by
    unfold Graph.retarget
    rw [List.map_map]
    rfl
  refine ⟨⟨?_, ?_, ?_, ?_⟩, fun l => ?_, ?_⟩
  · rw [hids]
    exact hg.ordered.ids
  · rw [houtputs]
    exact hg.ordered.outputs
  · exact List.pairwise_map.2 hg.ordered.reads
  · intro s hs
    obtain ⟨t, ht, rfl⟩ := mem_steps_retarget.1 hs
    exact hg.ordered.self t ht
  · refine (hg.links l).trans ⟨?_, ?_⟩
    · rintro ⟨s, hs, hl⟩
      exact ⟨_, mem_steps_retarget.2 ⟨s, hs, rfl⟩, hl⟩
    · rintro ⟨s, hs, hl⟩
      obtain ⟨t, ht, rfl⟩ := mem_steps_retarget.1 hs
      exact ⟨t, ht, hl⟩
  · intro s hs
    obtain ⟨t, ht, rfl⟩ := mem_steps_retarget.1 hs
    exact ⟨(hg.bound t ht).params, (hg.bound t ht).single⟩

theorem producer?_retarget (g : Graph) (kinds : StepId → TargetKind) (a : Address) :
    (g.retarget kinds).producer? a = (g.producer? a).map fun s => s.retarget (kinds s.id) := by
  unfold producer? retarget
  rw [List.find?_map]
  rfl

/-- **The kinds of targets do not enter what an address denotes.** -/
theorem denotes_retarget_iff {initial : Address → Option Dataset} {a : Address} {d : Dataset} :
    (g.retarget kinds).Denotes initial a d ↔ g.Denotes initial a d := by
  constructor
  · intro h
    induction h with
    | source hnone hinitial =>
      rw [producer?_retarget, Option.map_eq_none_iff] at hnone
      exact .source hnone hinitial
    | made value hproducer _ hresult ih =>
      rw [producer?_retarget, Option.map_eq_some_iff] at hproducer
      obtain ⟨s, hs, rfl⟩ := hproducer
      exact .made value hs ih hresult
  · intro h
    induction h with
    | source hnone hinitial =>
      exact .source (by rw [producer?_retarget, hnone]; rfl) hinitial
    | @made a s d value hproducer _ hresult ih =>
      refine .made (s := s.retarget (kinds s.id)) value ?_ ih hresult
      rw [producer?_retarget, hproducer]
      rfl

end Graph

end Provenance
