import Provenance.Proofs.Run.Yield
import Provenance.Proofs.Runs

/-!
# What crosses from one kind of target to another

Steps of one kind hand data to each other in memory; between kinds it goes through the storage.  In a run
of a graph that a client builds, no data is stale on either way, and none is read before it is there.

* `boundaries_of_way`: whenever a step begins, each input with a producer in the graph is either what the
  producer returned in this run, or it is left to the storage, where the producer wrote that data before;
  and this is the only write at the address in the whole run.  The same holds whenever a worker reads.
  When a run ends well, exactly the data is written that has to be: everything, or what no step reads and
  what a step of another kind reads.
-/

namespace Provenance

universe u w

/-- **A graph that a client builds has a handle for what each of its steps writes.** -/
theorem Session.charted_of_graph {α : Type w} {s : Session α} (hs : s.Reachable)
    {terminals : List Asset} (hterminals : ∀ a ∈ terminals, s.Offers (.asset a)) {g : Graph}
    (hbuilt : s.graph terminals = .ok g) : Run.Charted g := by
  obtain ⟨home, hsound⟩ := hs.sound
  obtain ⟨-, haddresses⟩ := Graph.addresses_of_ofTerminals hsound.catalog
    (fun a ha => (hterminals a ha).known hsound) hbuilt
  intro step hstep
  have htouched : step.output.address ∈ g.steps.flatMap Step.touched :=
    List.mem_flatMap.2 ⟨step, hstep, List.mem_append_right _ (List.mem_singleton_self _)⟩
  obtain ⟨x, hx, haddress⟩ := List.mem_map.1
    ((haddresses step.output.address).2 (List.mem_append_left _ htouched))
  exact List.find?_isSome.2 ⟨x, hx, by simpa using haddress⟩

namespace Run

variable {σ : Type u} {j : Setup σ} {s t u : State σ} {choices : List Choice}
  {history before after : List (ℕ × Deed)}

/-! ## 1.  The moment of a deed -/

/-- A step begins when it is ready, with the plan that is made then. -/
theorem begun_of_move {c : Choice} (h : Move j s c t) {p : ℕ} {plan : List (String × Source)}
    (hdeeds : j.deeds s c t = [(p, .began plan)]) :
    ∃ step, j.step? p = some step ∧ (∀ q ∈ j.awaits step, q ∈ s.done) ∧ plan = j.plan step s.made := by
  cases h with
  | ask => exact absurd hdeeds (by simp [Setup.deeds])
  | wait _ _ _ _ => exact absurd (hdeeds.symm.trans (deeds_turn _ _)) (by simp)
  | @start place step _ _ _ _ hready hstep =>
    rw [deeds_start] at hdeeds
    obtain ⟨rfl, hplan⟩ := Prod.mk.inj (List.singleton_inj.1 hdeeds)
    exact ⟨step, hstep, (ready_of_nextReady? hready hstep).2, (Deed.began.inj hplan).symm⟩
  | close _ _ => exact absurd (hdeeds.symm.trans (deeds_turn _ _)) (by simp)
  | @work place step stage _ _ hstep hstage _ =>
    rw [deeds_work hstep hstage] at hdeeds
    have hbegun := (begun_work (j := j) (s := s) place step stage).1
    rw [hdeeds] at hbegun
    exact absurd hbegun (by simp [begun])
  | finish _ _ hstage =>
    rw [deeds_finish hstage] at hdeeds
    exact absurd hdeeds (by simp)
  | fail _ _ hstage =>
    rw [deeds_fail hstage] at hdeeds
    exact absurd hdeeds (by simp)

/-- A worker reads what the first source that is left asks for. -/
theorem read_of_move {c : Choice} (h : Move j s c t) {p : ℕ} {a : Asset}
    (hdeeds : j.deeds s c t = [(p, .read a)]) :
    ∃ step got param rest, j.step? p = some step ∧
      s.working.lookup p = some (.reading got ((param, .storage a) :: rest)) := by
  cases h with
  | ask => exact absurd hdeeds (by simp [Setup.deeds])
  | wait _ _ _ _ => exact absurd (hdeeds.symm.trans (deeds_turn _ _)) (by simp)
  | start _ _ _ _ _ _ =>
    rw [deeds_start] at hdeeds
    exact absurd hdeeds (by simp)
  | close _ _ => exact absurd (hdeeds.symm.trans (deeds_turn _ _)) (by simp)
  | @work place step stage _ _ hstep hstage hadvance =>
    rw [deeds_work hstep hstage] at hdeeds
    cases hadvance with
    | stored _ =>
      obtain ⟨rfl, hread⟩ := Prod.mk.inj (List.singleton_inj.1 hdeeds)
      obtain rfl := Deed.read.inj hread
      exact ⟨step, _, _, _, hstep, hstage⟩
    | missed _ =>
      obtain ⟨rfl, hread⟩ := Prod.mk.inj (List.singleton_inj.1 hdeeds)
      obtain rfl := Deed.read.inj hread
      exact ⟨step, _, _, _, hstep, hstage⟩
    | computed _ _ _ hresult => exact absurd hdeeds (by simp [Setup.deed?, hresult])
    | aborted _ _ _ hresult => exact absurd hdeeds (by simp [Setup.deed?, hresult])
    | wrote hwrite => exact absurd hdeeds (by simp [Setup.deed?, hwrite])
    | refused hwrite => exact absurd hdeeds (by simp [Setup.deed?, hwrite])
    | _ => exact absurd hdeeds (by simp [Setup.deed?])
  | finish _ _ hstage =>
    rw [deeds_finish hstage] at hdeeds
    exact absurd hdeeds (by simp)
  | fail _ _ hstage =>
    rw [deeds_fail hstage] at hdeeds
    exact absurd hdeeds (by simp)

/-- What is done stays done. -/
theorem done_subset_of_move {c : Choice} (h : Move j s c t) : s.done ⊆ t.done := by
  cases h with
  | work _ hstage hadvance =>
    rw [(hadvance.keeps (mem_busy_of_lookup hstage)).done]
    exact List.Subset.refl _
  | finish _ _ _ => exact List.subset_append_left _ _
  | @fail place step fault _ _ _ =>
    obtain ⟨failure, -, heq⟩ := failure_fail
      { s with phase := .filling, working := unassign place s.working } place step fault
    rw [heq]
    exact List.Subset.refl _
  | _ => exact List.Subset.refl _

theorem done_subset_of_way (h : Way j s choices history t) : s.done ⊆ t.done :=
  h.invariant (P := fun _ _ t => s.done ⊆ t.done)
    (fun _ _ _ _ _ hsub hmove => List.Subset.trans hsub (done_subset_of_move hmove)) (List.Subset.refl _)

section

variable {store : σ} {stopAsked : Bool} {choices' : List Choice}

/-- What a step has made when it is done is all that it makes in the run. -/
theorem eq_harvest_of_done (hg : j.graph.Sound)
    (hto : Way j (.initial store stopAsked) choices before u)
    (hway : Way j (.initial store stopAsked) choices' (before ++ after) t) (hsub : u.done ⊆ t.done)
    {q : ℕ} (hdone : q ∈ u.done) {producer : Step} (hq : j.step? q = some producer) {data : Dataset}
    (hmade : products before q = j.harvest producer data) :
    products (before ++ after) q = j.harvest producer data ∧
      writes before producer.output.address =
        (if j.mustWrite producer then [(q, j.handle producer.output, data)] else []) ∧
      writes after producer.output.address = [] := by
  obtain ⟨hscheduled, hyielded⟩ := yielded_of_way hg hto
  obtain ⟨hscheduled', hyielded'⟩ := yielded_of_way hg hway
  obtain ⟨data', -, hmade'⟩ := hyielded'.done q (hsub hdone) producer hq
  have hdata : data' = data := by
    rw [products_append, hmade] at hmade'
    exact (Deed.returned.inj (List.cons.inj hmade').1).symm
  rw [hdata] at hmade'
  have hwrites := hyielded.writes_eq hg hscheduled hq hmade
  have hwrites' := hyielded'.writes_eq hg hscheduled' hq hmade'
  refine ⟨hmade', hwrites, ?_⟩
  rw [writes_append, hwrites] at hwrites'
  exact List.append_cancel_left (hwrites'.trans (List.append_nil _).symm)

end

/-! ## 2.  All runs -/

/-- What a step takes an input from, if a step of the graph produces it: what the producer has returned
before, and not anything else in the run.  Between kinds it goes through the storage, where the producer
has written it with the handle that it is read with, and nothing else is ever written there. -/
def Crosses (j : Setup σ) (before after : List (ℕ × Deed)) (step producer : Step) (a : Asset)
    (source : Source) : Prop :=
  ∃ q data, j.step? q = some producer ∧ (q, .returned data) ∈ before ∧
    (∀ d, (q, .returned d) ∈ before ++ after → d = data) ∧
    if producer.kind = step.kind then source = .memory data
    else source = .storage (j.handle a) ∧ writes before a.address = [(q, j.handle a, data)] ∧
      writes after a.address = []

section

variable {store : σ} {stopAsked : Bool} {choices' : List Choice}

/-- What a step draws from a producer that is done crosses as it should. -/
theorem crosses_of_drawn (hg : j.graph.Sound) (hcharted : Charted j.graph)
    (hto : Way j (.initial store stopAsked) choices before u)
    (hway : Way j (.initial store stopAsked) choices' (before ++ after) t) (hsub : u.done ⊆ t.done)
    {step producer : Step} (hstep : step ∈ j.graph.steps) {i : String × Asset} (hi : i ∈ step.inputs)
    {source : Source} (hdrawn : j.Drawn before u.done step i.2 source)
    (hproducer : j.graph.producer? i.2.address = some producer) :
    Crosses j before after step producer i.2 source := by
  unfold Setup.Drawn at hdrawn
  rw [hproducer] at hdrawn
  obtain ⟨q, hdone, hq, data, hmade, hsource⟩ := hdrawn
  obtain ⟨hmem, hout⟩ := (hg.producer?_eq_some_iff).1 hproducer
  obtain ⟨hall, hbefore, hafter⟩ := eq_harvest_of_done hg hto hway hsub hdone hq hmade
  refine ⟨q, data, hq, (returned_iff hmade).2 rfl, fun d hd => (returned_iff hall).1 hd, ?_⟩
  by_cases hkind : producer.kind = step.kind
  · rw [if_pos hkind] at hsource ⊢
    exact hsource
  · rw [if_neg hkind] at hsource ⊢
    have hreads : step.ReadsFrom producer.output.address := ⟨i, hi, hout.symm⟩
    have hhandle : j.handle i.2 = j.handle producer.output :=
      (handle_eq_of_address_eq (hcharted producer hmem) hout).symm
    rw [if_pos (mustWrite_of_readsFrom hg hstep hreads hkind)] at hbefore
    rw [hhandle, ← hout]
    exact ⟨hhandle ▸ hsource, hbefore, hafter⟩

/-- What a worker reads was left to the storage when its step began. -/
theorem drawn_of_reading (hg : j.graph.Sound) (hscheduled : Scheduled j s)
    (hyielded : Yielded j history s) {p : ℕ} {step : Step} (hstep : j.step? p = some step)
    {got : Inputs} {param : String} {a : Asset} {rest : List (String × Source)}
    (hstage : s.working.lookup p = some (.reading got ((param, .storage a) :: rest))) :
    ∃ i ∈ step.inputs, a = j.handle i.2 ∧ j.Drawn history s.done step i.2 (.storage a) := by
  obtain ⟨i, hi, ha, hkind⟩ := hyielded.stored p got _ step hstage hstep param a List.mem_cons_self
  refine ⟨i, hi, ha, ?_⟩
  unfold Setup.Drawn
  cases hproducer : j.graph.producer? i.2.address with
  | none => exact congrArg Source.storage ha
  | some producer =>
    obtain ⟨hmem, hout⟩ := (hg.producer?_eq_some_iff).1 hproducer
    obtain ⟨q, hq⟩ := List.mem_iff_getElem?.1 hmem
    have hreads : step.ReadsFrom producer.output.address := ⟨i, hi, hout.symm⟩
    have hstarted := hscheduled.busyStarted p (mem_busy_of_lookup hstage)
    have hdone : q ∈ s.done :=
      hscheduled.awaited p hstarted step hstep q ((mem_awaits_iff hg hstep).2 ⟨producer, hq, hreads⟩)
    obtain ⟨data, -, hmade⟩ := hyielded.done q hdone producer hq
    exact ⟨q, hdone, hq, data, hmade, by rw [if_neg (hkind producer hproducer), ha]⟩

end

/-- The addresses that a run which ends well lists as written. -/
theorem mem_written_iff (hyielded : Yielded j history s)
    (hall : ∀ p < j.graph.steps.length, p ∈ s.done) {a : Address} :
    a ∈ s.written ↔ ∃ step ∈ j.graph.steps, step.output.address = a ∧ j.mustWrite step = true := by
  rw [hyielded.written]
  simp only [List.mem_map, List.mem_filter, List.mem_filterMap]
  constructor
  · rintro ⟨step, ⟨⟨p, -, hp⟩, hwrite⟩, rfl⟩
    exact ⟨step, List.mem_of_getElem? hp, rfl, hwrite⟩
  · rintro ⟨step, hstep, rfl, hwrite⟩
    obtain ⟨p, hp⟩ := List.mem_iff_getElem?.1 hstep
    exact ⟨step, ⟨⟨p, hall p (List.getElem?_eq_some_iff.1 hp).1, hp⟩, hwrite⟩, rfl⟩

/-- No address is listed twice. -/
theorem nodup_written (hg : j.graph.Sound) (hscheduled : Scheduled j s)
    (hyielded : Yielded j history s) : s.written.Nodup := by
  rw [hyielded.written]
  refine List.Nodup.map_on ?_ ((hscheduled.done.filterMap ?_).filter _)
  · intro step hstep other hother heq
    obtain ⟨p, -, hp⟩ := List.mem_filterMap.1 (List.mem_of_mem_filter hstep)
    obtain ⟨q, -, hq⟩ := List.mem_filterMap.1 (List.mem_of_mem_filter hother)
    exact hg.eq_of_output_eq (List.mem_of_getElem? hp) (List.mem_of_getElem? hq) heq
  · intro p q step hp hq
    exact place_eq_of_id_eq hg hp hq rfl

/-- **What crosses between kinds is written once, before it is read.**  Whenever a step begins, and
whenever a worker reads, the data of a producer in the graph crosses as it should.  A run that ends well
lists what has to be written, each address once, and writes at no other. -/
theorem boundaries_of_way {α : Type w} {s : Session α} (hs : s.Reachable) {terminals : List Asset}
    (hterminals : ∀ a ∈ terminals, s.Offers (.asset a)) {g : Graph}
    (hbuilt : s.graph terminals = .ok g) {σ : Type u} {j : Setup σ} (hj : j.graph = g) {store : σ}
    {stopAsked : Bool} {choices : List Choice} {history : List (ℕ × Deed)} {t : State σ}
    (hway : Way j (.initial store stopAsked) choices history t) :
    (∀ before p plan after, history = before ++ (p, .began plan) :: after →
      ∃ step, j.step? p = some step ∧
        List.Forall₂ (fun i r => r.1 = i.1 ∧ ∀ producer, g.producer? i.2.address = some producer →
          Crosses j before ((p, .began plan) :: after) step producer i.2 r.2) step.inputs plan) ∧
    (∀ before p a after, history = before ++ (p, .read a) :: after →
      ∃ step, j.step? p = some step ∧ ∃ i ∈ step.inputs, a = j.handle i.2 ∧
        ∀ producer, g.producer? i.2.address = some producer →
          Crosses j before ((p, .read a) :: after) step producer i.2 (.storage a)) ∧
    ∀ r, t.phase = .over → j.outcome t = .ok r → r.written.Nodup ∧ ∀ a,
      (a ∈ r.written ↔ ∃ step ∈ g.steps, step.output.address = a ∧
        (j.policy = .all ∨ (∀ c ∈ g.steps, ¬ c.ReadsFrom a) ∨
          ∃ c ∈ g.steps, c.ReadsFrom a ∧ c.kind ≠ step.kind)) ∧
      (a ∈ r.written ↔ writes history a ≠ []) := by
  subst hj
  have hg := Session.sound_of_graph hs hterminals hbuilt
  have hcharted := Session.charted_of_graph hs hterminals hbuilt
  refine ⟨fun before p plan after hsplit => ?_, fun before p a after hsplit => ?_,
    fun r hover hr => ?_⟩
  · obtain ⟨u, c, v, choices₁, choices₂, hto, hmove, hdeeds, hon⟩ := hway.split hsplit
    obtain ⟨step, hstep, hawaits, rfl⟩ := begun_of_move hmove hdeeds
    obtain ⟨-, hyielded⟩ := yielded_of_way hg hto
    have hsub := List.Subset.trans (done_subset_of_move hmove) (done_subset_of_way hon)
    subst hsplit
    refine ⟨step, hstep, ((List.forall₂_and_left _ _).2
      ⟨fun i hi => hi, drawn_plan hg hyielded hstep hawaits⟩).imp ?_⟩
    rintro i r ⟨hi, hparam, hdrawn⟩
    exact ⟨hparam, fun producer hproducer =>
      crosses_of_drawn hg hcharted hto hway hsub (List.mem_of_getElem? hstep) hi hdrawn hproducer⟩
  · obtain ⟨u, c, v, choices₁, choices₂, hto, hmove, hdeeds, hon⟩ := hway.split hsplit
    obtain ⟨step, got, param, rest, hstep, hstage⟩ := read_of_move hmove hdeeds
    obtain ⟨hscheduled, hyielded⟩ := yielded_of_way hg hto
    have hsub := List.Subset.trans (done_subset_of_move hmove) (done_subset_of_way hon)
    obtain ⟨i, hi, ha, hdrawn⟩ := drawn_of_reading hg hscheduled hyielded hstep hstage
    subst hsplit
    exact ⟨step, hstep, i, hi, ha, fun producer hproducer =>
      crosses_of_drawn hg hcharted hto hway hsub (List.mem_of_getElem? hstep) hi hdrawn hproducer⟩
  · obtain ⟨hscheduled, hyielded⟩ := yielded_of_way hg hway
    obtain ⟨-, hall⟩ := hscheduled.mem_done hg hover hr
    have hwritten : r.written = t.written := by rw [report_of_outcome hr]
    rw [hwritten]
    refine ⟨nodup_written hg hscheduled hyielded, fun a => ⟨?_, ?_⟩⟩
    · rw [mem_written_iff hyielded hall]
      refine exists_congr fun step => and_congr_right fun hstep => and_congr_right ?_
      rintro rfl
      exact mustWrite_iff hg hcharted hstep
    · rw [mem_written_iff hyielded hall]
      constructor
      · rintro ⟨step, hstep, rfl, hwrite⟩
        obtain ⟨q, hq⟩ := List.mem_iff_getElem?.1 hstep
        obtain ⟨data, -, hmade⟩ :=
          hyielded.done q (hall q (List.getElem?_eq_some_iff.1 hq).1) step hq
        rw [hyielded.writes_eq hg hscheduled hq hmade, if_pos hwrite]
        exact List.cons_ne_nil _ _
      · intro hne
        obtain ⟨p, b, data, hwrote, rfl⟩ := exists_wrote_of_writes_ne_nil hne
        obtain ⟨step, hstep, hwrite, rfl⟩ := hyielded.of_wrote hscheduled hwrote
        exact ⟨step, List.mem_of_getElem? hstep, (j.address_handle _).symm, hwrite⟩

end Run

/-! ## 3.  A session whose steps run on two kinds of targets -/

namespace Session.Mixed

open Late (raw clean report)

/-- A task on a cluster that adds a row to what it reads. -/
def gather (target : Target) : Task :=
  { Run.Late.extend target with name := "gather", target := { target with kind := .cluster } }

/-- The step on the host. -/
def near (target : Target) : Step := ⟨1, Run.Late.extend target, [("x", raw)], clean, false⟩

/-- The step on the cluster, which reads from the one on the host. -/
def far (target : Target) : Step := ⟨2, gather target, [("x", clean.producedBy 1)], report, false⟩

/-- The session before the steps. -/
def declared : Session Unit where
  catalog := ⟨[], [], 3⟩
  held := [("raw", .asset raw), ("clean", .asset clean), ("report", .asset report)]

/-- The session between the steps. -/
def halfway (target : Target) : Session Unit where
  catalog := ⟨[near target], [(1, 1)], 3⟩
  held := [("raw", .asset raw), ("clean", .asset (clean.producedBy 1)), ("report", .asset report)]

/-- The session after both steps. -/
def session (target : Target) : Session Unit where
  catalog := ⟨[far target, near target], [(2, 2), (1, 1)], 3⟩
  held := [("raw", .asset raw), ("clean", .asset (clean.producedBy 1)),
    ("report", .asset (report.producedBy 2))]

theorem reachable (target : Target) : (session target).Reachable := by
  have hdeclared : declared.Reachable :=
    .declare "report" "lake" "report" (.declare "clean" "lake" "clean"
      (.declare "raw" "lake" "raw" .start))
  have hnear : declared.put ⟨Run.Late.extend target, [("x", raw)]⟩ clean =
      .ok (clean.producedBy 1, { halfway target with held := declared.held }) := by
    cbv
  have hfar : (halfway target).put ⟨gather target, [("x", clean.producedBy 1)]⟩ report =
      .ok (report.producedBy 2, { session target with held := (halfway target).held }) := by
    cbv
  have hextend : raw.transform (Run.Late.extend target) = .ok ⟨Run.Late.extend target, [("x", raw)]⟩ :=
    rfl
  have hgather : (clean.producedBy 1).transform (gather target) =
      .ok ⟨gather target, [("x", clean.producedBy 1)]⟩ := rfl
  have hhalfway : (halfway target).Reachable :=
    .put "clean" hdeclared (.single (.of_item? "raw" rfl) hextend) (.of_item? "clean" rfl) hnear
  exact .put "report" hhalfway (.single (.of_item? "clean" rfl) hgather) (.of_item? "report" rfl) hfar

theorem offers (target : Target) :
    ∀ a ∈ [report.producedBy 2], (session target).Offers (.asset a) := by
  intro a ha
  obtain rfl := List.mem_singleton.1 ha
  exact .of_item? "report" rfl

/-- The graph behind the report. -/
def graph (target : Target) : Graph :=
  ⟨[report.address], [raw, clean, report], [near target, far target],
    (near target).links ++ (far target).links⟩

theorem graph_eq (target : Target) :
    (session target).graph [report.producedBy 2] = .ok (graph target) := by
  cbv

/-- Each step runs on the engine for its kind, and no more is written than has to be. -/
def setup (target : Target) : Run.Setup Memory :=
  ⟨graph target, .engines, .boundaries, 2, [], Memory.store⟩

end Session.Mixed

namespace Run

/-- The end of a run of both steps. -/
def Mixed.ended (target : Target) : State Memory := Late.ended (Session.Mixed.setup target)

/-- The step on the cluster reads what the one on the host has written once, and both are listed. -/
theorem boundaries_of_way_mixed : ∃ choices history r,
    Way (Session.Mixed.setup .default) (.initial Late.memory false) choices history
      (Mixed.ended .default) ∧
    (Session.Mixed.setup .default).outcome (Mixed.ended .default) = .ok r ∧
    r.written.Nodup ∧ Session.Late.clean.address ∈ r.written ∧
    ∀ before a after, history = before ++ (1, .read a) :: after → ∃ data,
      a = Session.Late.clean ∧ (0, .returned data) ∈ before ∧
        writes before Session.Late.clean.address = [(0, Session.Late.clean, data)] := by
  have hover : ∀ target, (Mixed.ended target).phase = .over := by
    intro target
    cbv
  have hended : ∀ target, (Mixed.ended target).failure = none ∧ (Mixed.ended target).stopped = false := by
    intro target
    constructor <;> cbv
  have hproducer : ∀ target, (Session.Mixed.graph target).producer? Session.Late.clean.address =
      some (Session.Mixed.near target) := by
    intro target
    cbv
  have hhandle : ∀ target, (Session.Mixed.setup target).handle (Session.Late.clean.producedBy 1) =
      Session.Late.clean := by
    intro target
    cbv
  obtain ⟨r, hr⟩ := exists_outcome (hended .default).1 (hended .default).2
  obtain ⟨choices, history, hway⟩ := exists_way (Late.reaches_ended (Session.Mixed.setup .default))
  obtain ⟨-, hread, hwritten⟩ := boundaries_of_way (Session.Mixed.reachable .default)
    (Session.Mixed.offers .default) (Session.Mixed.graph_eq .default) rfl hway
  obtain ⟨hnodup, hlisted⟩ := hwritten r (hover .default) hr
  refine ⟨choices, history, r, hway, hr, hnodup, ?_, fun before a after hsplit => ?_⟩
  · refine (hlisted _).1.2 ⟨Session.Mixed.near .default, .head _, rfl, .inr (.inr ?_)⟩
    exact ⟨Session.Mixed.far .default, .tail _ (.head _), ⟨_, .head _, rfl⟩, by decide⟩
  · obtain ⟨step, hstep, i, hi, ha, hcrosses⟩ := hread before 1 a after hsplit
    obtain rfl : step = Session.Mixed.far .default := (Option.some.inj hstep).symm
    obtain rfl := List.mem_singleton.1 hi
    obtain ⟨q, data, hq, hreturned, -, hstored⟩ := hcrosses _ (hproducer .default)
    have hkind : (Session.Mixed.near .default).kind ≠ (Session.Mixed.far .default).kind := by decide
    have hplace : q = 0 := by
      have hsound := Session.sound_of_graph (Session.Mixed.reachable .default)
        (Session.Mixed.offers .default) (Session.Mixed.graph_eq .default)
      exact place_eq_of_id_eq (j := Session.Mixed.setup .default) hsound hq rfl rfl
    rw [if_neg hkind] at hstored
    rw [hhandle] at ha hstored
    exact ⟨data, ha, hplace ▸ hreturned, hplace ▸ hstored.2.1⟩

end Run

end Provenance
