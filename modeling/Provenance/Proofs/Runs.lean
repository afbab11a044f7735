import Provenance.Proofs.Run.Progress
import Provenance.Proofs.Run.Trace
import Provenance.Proofs.Run.Values
import Provenance.Proofs.Session

/-!
# Runs of the graphs that a session builds

A graph that a client builds is sound (`Session.sound_of_graph`), so what is known of the runs of sound
graphs applies to it.

* `lineage_of_evaluates`: what is completed is what the lineage says, and so runs that end well agree on
  the data at the ends of the graph.  They may differ in the storage, its state apart from the data that
  it holds, the bound, the policy, the site, the kinds of targets and the turns that workers take.
* `stories_of_outcome`: the trace of a run that ends well tells the whole story of every step, the
  stories of the steps that a step reads from before its own, and at no time more unfinished ones than
  there may be.

Neither needs the run to be the one that `Setup.run` makes, which is one of them (`Setup.exists_run`).
-/

namespace Provenance

universe u v w

/-- **A graph that a client builds is sound.** -/
theorem Session.sound_of_graph {α : Type w} {s : Session α} (hs : s.Reachable) {terminals : List Asset}
    (hterminals : ∀ a ∈ terminals, s.Offers (.asset a)) {g : Graph}
    (hbuilt : s.graph terminals = .ok g) : g.Sound := by
  obtain ⟨home, hsound⟩ := hs.sound
  exact Graph.sound_of_ofTerminals hsound.catalog (fun a ha => (hterminals a ha).known hsound) hbuilt

namespace Run

variable {σ : Type u} {j : Setup σ} {s : State σ} {g : Graph} {initial : Address → Option Dataset}

/-- What is reported of a run that ends well. -/
theorem report_of_outcome {r : Report} (hr : j.outcome s = .ok r) :
    r = ⟨j.site, s.completed, s.written, s.trace, s.made.filter fun e => j.graph.isSink e.1⟩ :=
  (outcome_eq_ok_iff.1 hr).2.2

/-- What is reported at an address: what the run has made there, if the graph ends there. -/
theorem output?_of_outcome {r : Report} (hr : j.outcome s = .ok r) (a : Address) :
    r.output? a = if j.graph.isSink a then s.made.lookup a else none := by
  rw [report_of_outcome hr]
  exact lookup_filter_fst j.graph.isSink a s.made

/-! ## What is computed -/

/-- A run of a graph, its steps bound to targets of any kinds, with engines that call the bodies of the
tasks and a storage that remembers and holds `initial` at first. -/
structure Evaluates (g : Graph) (initial : Address → Option Dataset) (j : Setup σ) (s : State σ) :
    Prop where
  graph : ∃ kinds, j.graph = g.retarget kinds
  bodies : j.CallsBodies
  reached : ∃ held store stopAsked, j.store.Remembers held ∧ held store = initial ∧
    j.Reaches (.initial store stopAsked) s

theorem Evaluates.sound (hg : g.Sound) (h : Evaluates g initial j s) : j.graph.Sound := by
  obtain ⟨kinds, hgraph⟩ := h.graph
  rw [hgraph]
  exact hg.retarget kinds

theorem Evaluates.valued (hg : g.Sound) (h : Evaluates g initial j s) :
    ∃ held, Valued j held initial s := by
  obtain ⟨held, store, stopAsked, hstore, rfl, hreached⟩ := h.reached
  exact ⟨held, valued_of_reaches (h.sound hg) h.bodies hstore hreached⟩

/-- What the run has of an address, the lineage says of it. -/
theorem Evaluates.denotes_iff (h : Evaluates g initial j s) {a : Address} {d : Dataset} :
    j.graph.Denotes initial a d ↔ g.Denotes initial a d := by
  obtain ⟨kinds, hgraph⟩ := h.graph
  rw [hgraph, Graph.denotes_retarget_iff]

/-- The data of every step that is completed is what its output denotes. -/
theorem Evaluates.completed (hg : g.Sound) (h : Evaluates g initial j s) :
    ∀ c ∈ s.completed, ∃ step ∈ g.steps, ∃ data, c.step = step.id ∧ c.output = step.output.address ∧
      s.made.lookup c.output = some data ∧ c.rows = data.size ∧ g.Denotes initial c.output data := by
  obtain ⟨kinds, hgraph⟩ := h.graph
  obtain ⟨held, hvalued⟩ := h.valued hg
  intro c hc
  obtain ⟨p, hp, bound, data, hbound, hid, hout, hmade, hrows⟩ := hvalued.completed c hc
  obtain ⟨data', hmade', hdenotes, -⟩ := hvalued.done p hp bound hbound
  rw [← hout] at hmade' hdenotes
  obtain rfl := Option.some.inj (hmade.symm.trans hmade')
  have hmem : bound ∈ (g.retarget kinds).steps := hgraph ▸ List.mem_of_getElem? hbound
  obtain ⟨step, hstep, rfl⟩ := Graph.mem_steps_retarget.1 hmem
  exact ⟨step, hstep, data, hid, hout, hmade, hrows, h.denotes_iff.1 hdenotes⟩

/-- A run that ends well reports what it has made at an end of the graph. -/
theorem Evaluates.output?_eq (h : Evaluates g initial j s) {r : Report} (hr : j.outcome s = .ok r)
    {a : Address} (ha : g.isSink a = true) : r.output? a = s.made.lookup a := by
  obtain ⟨kinds, hgraph⟩ := h.graph
  have hsink : j.graph.isSink a = true := hgraph ▸ ha
  rw [output?_of_outcome hr, if_pos hsink]

/-- A run that ends well reports what an end of the graph denotes, if a step writes it, and nothing
otherwise. -/
theorem Evaluates.output? (hg : g.Sound) (h : Evaluates g initial j s) (hover : s.phase = .over)
    {r : Report} (hr : j.outcome s = .ok r) {a : Address} (ha : g.isSink a = true) :
    (g.producer? a = none → r.output? a = none) ∧
      ∀ step, g.producer? a = some step →
        ∃ data, r.output? a = some data ∧ g.Denotes initial a data := by
  obtain ⟨kinds, hgraph⟩ := h.graph
  obtain ⟨_, _, _, _, _, hreached⟩ := h.reached
  obtain ⟨held, hvalued⟩ := h.valued hg
  obtain ⟨-, hdone⟩ := (scheduled_of_reaches hreached).mem_done (h.sound hg) hover hr
  have hproducer : j.graph.producer? a = (g.producer? a).map fun s => s.retarget (kinds s.id) := by
    rw [hgraph, Graph.producer?_retarget]
  rw [h.output?_eq hr ha]
  refine ⟨fun hnone => ?_, fun step hstep => ?_⟩
  · rw [hnone, Option.map_none] at hproducer
    rw [Option.eq_none_iff_forall_not_mem]
    intro data hmade
    obtain ⟨p, -, step, hstep, rfl⟩ := hvalued.made a data hmade
    rw [(h.sound hg).producer?_output (List.mem_of_getElem? hstep)] at hproducer
    exact absurd hproducer (by simp)
  · rw [hstep, Option.map_some] at hproducer
    obtain ⟨hmem, hout⟩ := ((h.sound hg).producer?_eq_some_iff).1 hproducer
    obtain ⟨p, hp⟩ := List.mem_iff_getElem?.1 hmem
    obtain ⟨data, hmade, hdenotes, -⟩ :=
      hvalued.done p (hdone p (List.getElem?_eq_some_iff.1 hp).1) _ hp
    rw [hout] at hmade hdenotes
    exact ⟨data, hmade, h.denotes_iff.1 hdenotes⟩

/-- **A run computes what the lineage says**, whatever storage, bound, policy, site, targets and turns it
has; so runs that end well agree on the ends of the graph. -/
theorem lineage_of_evaluates {α : Type w} {s : Session α} (hs : s.Reachable) {terminals : List Asset}
    (hterminals : ∀ a ∈ terminals, s.Offers (.asset a)) {g : Graph}
    (hbuilt : s.graph terminals = .ok g) {initial : Address → Option Dataset} {σ : Type u}
    {j : Setup σ} {t : State σ} (h : Evaluates g initial j t) :
    (∀ c ∈ t.completed, ∃ step ∈ g.steps, ∃ data, c.step = step.id ∧
      c.output = step.output.address ∧ t.made.lookup c.output = some data ∧ c.rows = data.size ∧
      ∀ d, g.Denotes initial c.output d ↔ d = data) ∧
    ∀ r, t.phase = .over → j.outcome t = .ok r →
      (∀ a step, g.isSink a = true → g.producer? a = some step →
        ∃ data, r.output? a = some data ∧ g.Denotes initial a data) ∧
      ∀ {τ : Type v} {j' : Setup τ} {t' : State τ} {r' : Report}, Evaluates g initial j' t' →
        t'.phase = .over → j'.outcome t' = .ok r' →
          ∀ a, g.isSink a = true → r.output? a = r'.output? a := by
  have hg := Session.sound_of_graph hs hterminals hbuilt
  refine ⟨fun c hc => ?_, fun r hover hr => ⟨fun a step ha hstep => ?_, ?_⟩⟩
  · obtain ⟨step, hstep, data, hid, hout, hmade, hrows, hdenotes⟩ := h.completed hg c hc
    refine ⟨step, hstep, data, hid, hout, hmade, hrows, fun d => ⟨fun hd => hd.unique hg hdenotes, ?_⟩⟩
    rintro rfl
    exact hdenotes
  · exact (h.output? hg hover hr ha).2 step hstep
  · intro τ j' t' r' h' hover' hr' a ha
    obtain ⟨hnone, hsome⟩ := h.output? hg hover hr ha
    obtain ⟨hnone', hsome'⟩ := h'.output? hg hover' hr' ha
    cases hproducer : g.producer? a with
    | none => rw [hnone hproducer, hnone' hproducer]
    | some step =>
      obtain ⟨data, hdata, hdenotes⟩ := hsome step hproducer
      obtain ⟨data', hdata', hdenotes'⟩ := hsome' step hproducer
      rw [hdata, hdata', hdenotes.unique hg hdenotes']

/-- A task on the host that adds a row to what it reads. -/
def Late.extend (target : Target) : Task where
  name := "extend"
  params := ["x"]
  body i := ⟨(i.require "x").map fun d => d.pushRow [], false, []⟩
  target := { target with kind := .host }
  schedule := none
  monitoring := none

/-- The graph behind the report, on targets of some kinds. -/
def Late.setup (target : Target) (kinds : StepId → TargetKind) (site : Site) (policy : Policy)
    (workers : ℕ) : Setup Memory :=
  ⟨(Session.Late.graph (Late.extend target)).retarget kinds, site, policy, workers, [], Memory.store⟩

/-- One step after the other in the process, and no more is written than has to be. -/
def Late.alone (target : Target) : Setup Memory :=
  Late.setup target (fun _ => .host) .process .boundaries 1

/-- The older step on a cluster, up to two steps at once, and everything is written. -/
def Late.apart (target : Target) : Setup Memory :=
  Late.setup target (fun id => if id = 1 then .cluster else .host) .engines .all 2

/-- The memory that holds the raw data. -/
def Late.memory : Memory := Memory.empty.seed Session.Late.raw.address ⟨["n"], []⟩

/-- The end of a run that starts from the raw data. -/
def Late.ended (j : Setup Memory) : State Memory := j.drive j.moves (.initial Late.memory false)

theorem Late.reaches_ended (j : Setup Memory) : j.Reaches (.initial Late.memory false) (Late.ended j) :=
  j.reaches_drive j.moves (.refl _)

theorem Late.evaluates (target : Target) (kinds : StepId → TargetKind) (site : Site) (policy : Policy)
    (workers : ℕ) : Evaluates (Session.Late.graph (Late.extend target)) Late.memory.get?
      (Late.setup target kinds site policy workers)
      (Late.ended (Late.setup target kinds site policy workers)) where
  graph := ⟨kinds, rfl⟩
  bodies _ he := absurd he List.not_mem_nil
  reached := ⟨Memory.get?, Late.memory, false, Memory.remembers, rfl, Late.reaches_ended _⟩

/-- Where nothing has failed and no request to stop was seen, a run ends well. -/
theorem exists_outcome (hfailure : s.failure = none) (hstopped : s.stopped = false) :
    ∃ r, j.outcome s = .ok r :=
  ⟨_, outcome_eq_ok_iff.2 ⟨hfailure, fun hasked => absurd (hstopped.symm.trans hasked) (by simp), rfl⟩⟩

theorem Late.alone_ends_well (target : Target) :
    (Late.ended (Late.alone target)).phase = .over ∧
      ∃ r, (Late.alone target).outcome (Late.ended (Late.alone target)) = .ok r :=
  ⟨by cbv, exists_outcome (by cbv) (by cbv)⟩

theorem Late.apart_ends_well (target : Target) :
    (Late.ended (Late.apart target)).phase = .over ∧
      ∃ r, (Late.apart target).outcome (Late.ended (Late.apart target)) = .ok r :=
  ⟨by cbv, exists_outcome (by cbv) (by cbv)⟩

/-- In the process and on two kinds of targets, the report comes to the same. -/
theorem lineage_of_evaluates_late : ∃ r r',
    (Late.alone .default).outcome (Late.ended (Late.alone .default)) = .ok r ∧
      (Late.apart .default).outcome (Late.ended (Late.apart .default)) = .ok r' ∧
      r.output? Session.Late.report.address = r'.output? Session.Late.report.address ∧
      ∃ data, r.output? Session.Late.report.address = some data ∧
        (Session.Late.graph (Late.extend .default)).Denotes Late.memory.get?
          Session.Late.report.address data := by
  obtain ⟨hover, r, hr⟩ := Late.alone_ends_well .default
  obtain ⟨hover', r', hr'⟩ := Late.apart_ends_well .default
  have hsink : ∀ target, (Session.Late.graph (Late.extend target)).isSink Session.Late.report.address =
      true := by
    intro target
    cbv
  have hproducer : ∀ target, (Session.Late.graph (Late.extend target)).producer?
      Session.Late.report.address = some (Session.Late.older (Late.extend target)) := by
    intro target
    cbv
  obtain ⟨-, hreport⟩ := lineage_of_evaluates (Session.Late.reachable (t := Late.extend .default) rfl)
    (Session.Late.offers _) (Session.Late.graph_eq _) (Late.evaluates .default _ _ _ _)
  obtain ⟨hsome, hagree⟩ := hreport r hover hr
  exact ⟨r, r', hr, hr', hagree (Late.evaluates .default _ _ _ _) hover' hr' _ (hsink _),
    hsome _ _ (hsink _) (hproducer _)⟩

/-! ## What is told -/

/-- **The trace of a run that ends well** is numbered without gaps.  It tells of each step that it
started, that its data was written if it had to be, and that it finished, each once and in this order,
and of nothing else.  The whole story of a step comes before the start of every step that reads from it,
and no more steps are under way at any time than may be. -/
theorem stories_of_outcome {α : Type w} {s : Session α} (hs : s.Reachable) {terminals : List Asset}
    (hterminals : ∀ a ∈ terminals, s.Offers (.asset a)) {g : Graph}
    (hbuilt : s.graph terminals = .ok g) {σ : Type u} {j : Setup σ} (hj : j.graph = g) {store : σ}
    {stopAsked : Bool} {t : State σ} (hreached : j.Reaches (.initial store stopAsked) t)
    (hover : t.phase = .over) {r : Report} (hr : j.outcome t = .ok r) :
    r.trace.map (·.seq) = List.range r.trace.length ∧
    (∀ step ∈ g.steps, told r.trace step.id = j.story step) ∧
    (∀ e ∈ r.trace, e.event ≠ .failed ∧ ∃ step ∈ g.steps, e.step = step.id ∧ e.task = step.task.name) ∧
    (∀ p ∈ g.steps, ∀ c ∈ g.steps, (p.id, c.id) ∈ g.edges → ∀ before e after,
      r.trace = before ++ e :: after → e.step = c.id → e.event = .started →
        told before p.id = j.story p) ∧
    ∀ before after, r.trace = before ++ after → (unfinished g before).length ≤ j.bound := by
  subst hj
  have hg := Session.sound_of_graph hs hterminals hbuilt
  obtain ⟨htraced, hbounded⟩ := traced_of_reaches hg hreached
  obtain ⟨hfailure, hdone⟩ := (scheduled_of_reaches hreached).mem_done hg hover hr
  rw [show r.trace = t.trace by rw [report_of_outcome hr]]
  refine ⟨htraced.seq, fun step hstep => ?_, fun e he => ⟨htraced.unfailed hfailure e he, ?_⟩,
    fun p hp c hc hedge before e after hsplit hid hstarted => ?_, hbounded hfailure⟩
  · obtain ⟨p, hp⟩ := List.mem_iff_getElem?.1 hstep
    exact htraced.done p (hdone p (List.getElem?_eq_some_iff.1 hp).1) step hp
  · obtain ⟨p, -, step, hstep, hid, hname⟩ := htraced.named e he
    exact ⟨step, List.mem_of_getElem? hstep, hid, hname⟩
  · obtain ⟨p', hp', c', hc', heq, hreads⟩ := (hg.mem_edges_iff).1 hedge
    obtain ⟨hpid, hcid⟩ := Prod.mk.inj heq
    obtain rfl := hg.eq_of_id_eq hp hp' hpid
    obtain rfl := hg.eq_of_id_eq hc hc' hcid
    exact htraced.ordered before e after hsplit hstarted c hc hid.symm p hp hreads

/-- The newer step has told its story before the older one, which reads from it, starts. -/
theorem stories_of_outcome_late : ∃ r,
    (Late.alone .default).outcome (Late.ended (Late.alone .default)) = .ok r ∧
      told r.trace 2 = [.started, .finished] ∧
      told r.trace 1 = [.started, .written Session.Late.report.address, .finished] ∧
      ∀ before e after, r.trace = before ++ e :: after → e.step = 1 → e.event = .started →
        told before 2 = [.started, .finished] := by
  obtain ⟨hover, r, hr⟩ := Late.alone_ends_well .default
  have hnewer : ∀ target, (Late.alone target).story (Session.Late.newer (Late.extend target)) =
      [.started, .finished] := by
    intro target
    cbv
  have holder : ∀ target, (Late.alone target).story (Session.Late.older (Late.extend target)) =
      [.started, .written Session.Late.report.address, .finished] := by
    intro target
    cbv
  have hedges : ∀ target, (Session.Late.graph (Late.extend target)).edges = [(2, 1)] := by
    intro target
    cbv
  obtain ⟨-, htold, -, hordered, -⟩ := stories_of_outcome
    (Session.Late.reachable (t := Late.extend .default) rfl) (Session.Late.offers _)
    (Session.Late.graph_eq _) rfl (Late.reaches_ended (Late.alone .default)) hover hr
  refine ⟨r, hr, (htold (Session.Late.newer _) (.head _)).trans (hnewer _),
    (htold (Session.Late.older _) (.tail _ (.head _))).trans (holder _),
    fun before e after hsplit hid hstarted => ?_⟩
  exact (hordered (Session.Late.newer _) (.head _) (Session.Late.older _) (.tail _ (.head _))
    (by rw [hedges]; exact .head _) before e after hsplit hid hstarted).trans (hnewer _)

end Run

end Provenance
