import Provenance.Proofs.Boundaries

/-!
# What a run does with its terminals

Which data a run writes, and which it hands over in its report, goes by where the graph ends and not by
what it was built for.  The two differ where one terminal lies behind another.

* `delivered_of_way`: a run that ends well writes the data of a step once if it has to, and not at all
  otherwise, and reports it exactly if no step reads it.
* `terminals_of_way`: so a terminal that no step reads is always written and reported, and one that lies
  behind another terminal is never reported.
* `exists_terminal_behind`: where the steps are of one kind, it is not even written.
-/

namespace Provenance

universe u w

namespace Run

variable {σ : Type u} {j : Setup σ} {store : σ} {stopAsked : Bool} {choices : List Choice}
  {history : List (ℕ × Deed)} {t : State σ}

/-- **What becomes of the data of a step** in a run that ends well: it is written once if it has to be
written, and reported if the graph ends there. -/
theorem delivered_of_way (hg : j.graph.Sound)
    (hway : Way j (.initial store stopAsked) choices history t) (hover : t.phase = .over) {r : Report}
    (hr : j.outcome t = .ok r) {p : ℕ} {step : Step} (hstep : j.step? p = some step) :
    ∃ data, (∀ d, (p, .returned d) ∈ history ↔ d = data) ∧
      (step.output.address ∈ r.written ↔ j.mustWrite step = true) ∧
      writes history step.output.address =
        (if j.mustWrite step then [(p, j.handle step.output, data)] else []) ∧
      r.output? step.output.address =
        if j.graph.isSink step.output.address then some data else none := by
  obtain ⟨hscheduled, hyielded⟩ := yielded_of_way hg hway
  obtain ⟨-, hall⟩ := hscheduled.mem_done hg hover hr
  have hdone : p ∈ t.done := hall p (List.getElem?_eq_some_iff.1 hstep).1
  obtain ⟨data, hmade, hharvest⟩ := hyielded.done p hdone step hstep
  refine ⟨data, fun d => returned_iff hharvest, ?_, hyielded.writes_eq hg hscheduled hstep hharvest, ?_⟩
  · have hwritten : r.written = t.written := by rw [report_of_outcome hr]
    rw [hwritten, mem_written_iff hyielded hall]
    constructor
    · rintro ⟨other, hother, heq, hwrite⟩
      rwa [← hg.eq_of_output_eq hother (List.mem_of_getElem? hstep) heq]
    · exact fun hwrite => ⟨step, List.mem_of_getElem? hstep, rfl, hwrite⟩
  · rw [output?_of_outcome hr, hmade]

/-- **What becomes of the terminals** in a run that ends well, if a step of the graph writes them.

* A terminal that no step reads is written once, with what the engine returned for it, and reported.
* A terminal that another step reads is not reported.  It is written, once and with the same data, exactly
  if all data is to be written or a step of another kind reads it. -/
theorem terminals_of_way {α : Type w} {s : Session α} (hs : s.Reachable) {terminals : List Asset}
    (hterminals : ∀ a ∈ terminals, s.Offers (.asset a)) {g : Graph}
    (hbuilt : s.graph terminals = .ok g) {σ : Type u} {j : Setup σ} (hj : j.graph = g) {store : σ}
    {stopAsked : Bool} {choices : List Choice} {history : List (ℕ × Deed)} {t : State σ}
    (hway : Way j (.initial store stopAsked) choices history t) (hover : t.phase = .over) {r : Report}
    (hr : j.outcome t = .ok r) :
    ∀ x ∈ terminals, ∀ step, g.producer? x.address = some step →
      ∃ p data, j.step? p = some step ∧ (∀ d, (p, .returned d) ∈ history ↔ d = data) ∧
        ((∀ c ∈ g.steps, ¬ c.ReadsFrom x.address) → x.address ∈ r.written ∧
          writes history x.address = [(p, j.handle x, data)] ∧ r.output? x.address = some data) ∧
        ((∃ c ∈ g.steps, c.ReadsFrom x.address) → r.output? x.address = none ∧
          (x.address ∈ r.written ↔
            j.policy = .all ∨ ∃ c ∈ g.steps, c.ReadsFrom x.address ∧ c.kind ≠ step.kind) ∧
          writes history x.address =
            if x.address ∈ r.written then [(p, j.handle x, data)] else []) := by
  subst hj
  have hg := Session.sound_of_graph hs hterminals hbuilt
  have hcharted := Session.charted_of_graph hs hterminals hbuilt
  intro x _ step hproducer
  obtain ⟨hmem, hout⟩ := (hg.producer?_eq_some_iff).1 hproducer
  obtain ⟨p, hp⟩ := List.mem_iff_getElem?.1 hmem
  obtain ⟨data, hreturned, hwritten, hwrites, houtput⟩ := delivered_of_way hg hway hover hr hp
  have hhandle : j.handle step.output = j.handle x :=
    handle_eq_of_address_eq (hcharted step hmem) hout
  have hmust := mustWrite_iff hg hcharted hmem
  have hsink : j.graph.isSink x.address = true ↔ ∀ c ∈ j.graph.steps, ¬ c.ReadsFrom x.address := by
    rw [hg.isSink_iff, ← hout]
    exact and_iff_right (hcharted step hmem)
  rw [hhandle] at hwrites
  rw [hout] at hwritten hwrites houtput hmust
  refine ⟨p, data, hp, hreturned, fun hunread => ?_, fun hread => ⟨?_, ?_, ?_⟩⟩
  · have hwrite := hmust.2 (.inr (.inl hunread))
    rw [if_pos hwrite] at hwrites
    rw [if_pos (hsink.2 hunread)] at houtput
    exact ⟨hwritten.2 hwrite, hwrites, houtput⟩
  · obtain ⟨c, hc, hreads⟩ := hread
    rw [houtput, if_neg fun hends => hsink.1 hends c hc hreads]
  · obtain ⟨c, hc, hreads⟩ := hread
    rw [hwritten, hmust]
    exact or_congr_right (or_iff_right fun hunread => hunread c hc hreads)
  · rw [hwrites]
    exact if_congr hwritten.symm rfl rfl

end Run

/-! ## A terminal behind another one -/

namespace Session.Late

/-- The graph behind the clean data and the report, which is made of the clean data. -/
def both (t : Task) : Graph := { graph t with terminals := [clean.address, report.address] }

theorem both_eq (t : Task) :
    (session t).graph [clean.producedBy 2, report.producedBy 1] = .ok (both t) := by
  cbv

theorem offers_both (t : Task) :
    ∀ a ∈ [clean.producedBy 2, report.producedBy 1], (session t).Offers (.asset a) := by
  intro a ha
  rcases List.mem_cons.1 ha with rfl | ha
  · exact .of_item? "clean" rfl
  · exact offers t a ha

end Session.Late

namespace Run

/-- One step after the other in the process, for the clean data and the report. -/
def Late.asked (target : Target) (policy : Policy) : Setup Memory :=
  ⟨Session.Late.both (Late.extend target), .process, policy, 1, [], Memory.store⟩

theorem Late.asked_ends_well (target : Target) (policy : Policy) :
    (Late.ended (Late.asked target policy)).phase = .over ∧
      ∃ r, (Late.asked target policy).outcome (Late.ended (Late.asked target policy)) = .ok r := by
  cases policy <;> exact ⟨by cbv, exists_outcome (by cbv) (by cbv)⟩

/-- Where everything is written, the clean data is written too, but only the report is reported. -/
theorem terminals_of_way_asked : ∃ r,
    (Late.asked .default .all).outcome (Late.ended (Late.asked .default .all)) = .ok r ∧
      Session.Late.clean.address ∈ r.written ∧ Session.Late.report.address ∈ r.written ∧
      r.output? Session.Late.clean.address = none ∧
      ∃ data, r.output? Session.Late.report.address = some data := by
  obtain ⟨hover, r, hr⟩ := Late.asked_ends_well .default .all
  have hclean : ∀ target, (Session.Late.both (Late.extend target)).producer? Session.Late.clean.address =
      some (Session.Late.newer (Late.extend target)) := by
    intro target
    cbv
  have hreport : ∀ target, (Session.Late.both (Late.extend target)).producer?
      Session.Late.report.address = some (Session.Late.older (Late.extend target)) := by
    intro target
    cbv
  have hsink : ∀ target, (Session.Late.both (Late.extend target)).isSink
      Session.Late.report.address = true := by
    intro target
    cbv
  have hg := Session.sound_of_graph (Session.Late.reachable (t := Late.extend .default) rfl)
    (Session.Late.offers_both _) (Session.Late.both_eq _)
  obtain ⟨choices, history, hway⟩ := exists_way (Late.reaches_ended (Late.asked .default .all))
  have hterminals := terminals_of_way (Session.Late.reachable (t := Late.extend .default) rfl)
    (Session.Late.offers_both _) (Session.Late.both_eq _) rfl hway hover hr
  obtain ⟨_, _, _, _, -, hread⟩ := hterminals _ (.head _) _ (hclean _)
  obtain ⟨hnone, hwritten, -⟩ := hread ⟨Session.Late.older _, .tail _ (.head _), ⟨_, .head _, rfl⟩⟩
  obtain ⟨_, data, _, _, hunread, -⟩ := hterminals _ (.tail _ (.head _)) _ (hreport _)
  obtain ⟨hlast, -, hdata⟩ := hunread ((hg.isSink_iff).1 (hsink _)).2
  exact ⟨r, hr, hwritten.2 (.inl rfl), hlast, hnone, data, hdata⟩

/-- **A terminal that another one is made of may be left out.**  The clean data and the report are both
asked for, and the run ends well; still the clean data is neither written nor reported. -/
theorem exists_terminal_behind : ∃ r,
    (Session.Late.session (Late.extend .default)).Reachable ∧
    (Session.Late.session (Late.extend .default)).graph
      [Session.Late.clean.producedBy 2, Session.Late.report.producedBy 1] =
        .ok (Late.asked .default .boundaries).graph ∧
    ((Late.asked .default .boundaries).graph.producer? Session.Late.clean.address).isSome ∧
    (Late.asked .default .boundaries).Reaches (.initial Late.memory false)
      (Late.ended (Late.asked .default .boundaries)) ∧
    (Late.ended (Late.asked .default .boundaries)).phase = .over ∧
    (Late.asked .default .boundaries).outcome (Late.ended (Late.asked .default .boundaries)) = .ok r ∧
    Session.Late.clean.address ∉ r.written ∧ r.output? Session.Late.clean.address = none := by
  obtain ⟨hover, r, hr⟩ := Late.asked_ends_well .default .boundaries
  have hproducer : ∀ target, ((Late.asked target .boundaries).graph.producer?
      Session.Late.clean.address).isSome := by
    intro target
    cbv
  have hwrite : ∀ target, (Late.asked target .boundaries).mustWrite
      (Session.Late.newer (Late.extend target)) = false := by
    intro target
    cbv
  have hsink : ∀ target, (Late.asked target .boundaries).graph.isSink
      Session.Late.clean.address = false := by
    intro target
    cbv
  have hgraph := Session.Late.both_eq (Late.extend .default)
  have hreachable := Session.Late.reachable (t := Late.extend .default) rfl
  have hg := Session.sound_of_graph hreachable (Session.Late.offers_both _) hgraph
  obtain ⟨choices, history, hway⟩ := exists_way (Late.reaches_ended (Late.asked .default .boundaries))
  have hstep : (Late.asked .default .boundaries).step? 0 =
      some (Session.Late.newer (Late.extend .default)) := rfl
  obtain ⟨data, -, hwritten, -, houtput⟩ := delivered_of_way hg hway hover hr hstep
  refine ⟨r, hreachable, hgraph, hproducer _, Late.reaches_ended _, hover, hr, fun hmem => ?_, ?_⟩
  · have hmust := hwritten.1 hmem
    rw [hwrite] at hmust
    exact absurd hmust Bool.false_ne_true
  · have hnot : ¬ (Late.asked .default .boundaries).graph.isSink Session.Late.clean.address = true := by
      rw [hsink]
      exact Bool.false_ne_true
    exact houtput.trans (if_neg hnot)

end Run

end Provenance
