import Provenance.Proofs.Session

/-!
# What a graph shows of the lineage

The two main results about building a graph, for every session that a client can reach and all terminals
that it offers.

* `Session.steps_of_graph`: the steps of a graph are the producers that the terminals lead back to, each
  once, and their order is the lexicographically least one in which every step comes after the producers
  of its inputs.  It does not depend on how anything was listed on the way.
* `Session.cycle_iff`: a graph is refused as cyclic exactly if an address behind the terminals depends on
  itself, and what is reported is a closed walk.  The other two places that could report a cycle never
  do.
-/

namespace Provenance

open Relation (TransGen)

universe u

variable {α : Type u}

namespace Survey

/-- The producers that were settled on for the inputs of a step stand in a list. -/
def Supplied (v : Survey) (before : List Step) (s : Step) : Prop :=
  ∀ i ∈ s.inputs, ∀ p, v.producers.lookup i.2.address = some p → p ∈ before

/-- Every step comes after the producers of its inputs. -/
def Respects (v : Survey) (order : List Step) : Prop :=
  ∀ before s after, order = before ++ s :: after → v.Supplied before s

section Order

variable {v w : Survey} {c : Catalog} {terminals : List Asset} {placed : List Step}

/-- Being supplied is being ready, for a step that is kept and is not placed yet. -/
theorem supplied_iff (hv : v.Settled c) (hw : w = prune (terminals.map (·.address)) v)
    {before : List Step} (hbefore : ∀ p ∈ before, p ∈ Order.steps w) {s : Step}
    (hs : s ∈ Order.steps w) :
    v.Supplied before s ↔ ∀ p ∈ Order.upstream w s, p ∈ before.map (·.id) := by
  have hpruned : w.Settled c := hw ▸ hv.prune _
  obtain ⟨a, ha⟩ := (Order.mem_steps hpruned.consistent).1 hs
  have hlookup : ∀ {b t}, w.producers.lookup b = some t ↔
      v.Behind terminals b ∧ v.producers.lookup b = some t := by
    rw [hw]
    exact lookup_prune_iff
  obtain ⟨hbehind, hs⟩ := hlookup.1 (hpruned.lookup_iff.2 ha)
  constructor
  · intro hsupplied p hp
    obtain ⟨i, hi, t, ht, rfl⟩ := Order.mem_upstream.1 hp
    exact List.mem_map.2 ⟨t, hsupplied i hi t (hlookup.1 ht).2, rfl⟩
  · intro hready i hi p hp
    have hkept := hlookup.2 ⟨hbehind.reads ⟨s, hs, i, hi, rfl⟩, hp⟩
    have hid := hready p.id (Order.mem_upstream.2 ⟨i, hi, p, hkept, rfl⟩)
    obtain ⟨q, hq, hqp⟩ := List.mem_map.1 hid
    have hp : p ∈ Order.steps w := (Order.mem_steps hpruned.consistent).2 ⟨_, mem_of_lookup hkept⟩
    rwa [← Order.eq_of_id_eq (Order.nodup_steps w) (hbefore q hq) hp hqp]

/-- The order of execution respects lineage. -/
theorem respects_of_ofSurvey (hv : v.Settled c) (hw : w = prune (terminals.map (·.address)) v)
    (h : Order.ofSurvey w = .ok placed) : v.Respects placed := by
  intro before s after hsplit
  have hmem : ∀ t ∈ before ++ s :: after, t ∈ Order.steps w :=
    fun t ht => (Order.mem_of_ofSurvey h).1 (hsplit ▸ ht)
  rw [supplied_iff hv hw (fun p hp => hmem p (by simp [hp])) (hmem s (by simp))]
  exact fun p hp => Order.mem_before_of_ofSurvey (hsplit ▸ h) hp

/-- Each place holds the least of the steps that are left and supplied. -/
theorem least_of_ofSurvey (hv : v.Settled c) (hw : w = prune (terminals.map (·.address)) v)
    {before after : List Step} {s other : Step}
    (h : Order.ofSurvey w = .ok (before ++ s :: after)) (hother : other ∈ s :: after)
    (hsupplied : v.Supplied before other) : s.id ≤ other.id := by
  have hids := Order.map_id_of_ofSurvey h
  have hnodup := Order.nodup_ids w
  have hmem : ∀ t ∈ before ++ s :: after, t ∈ Order.steps w := fun t => (Order.mem_of_ofSurvey h).1
  have hleft : other ∈ Order.steps w := hmem other (List.mem_append_right _ hother)
  rw [← hids, List.map_append] at hnodup
  rw [List.map_append, List.map_cons] at hids
  refine ((Order.ids_greedy w).of_split hids.symm).2 other.id
    ⟨fun hplaced => ?_, other, hleft, rfl, ?_⟩
  · exact (List.nodup_append.1 hnodup).2.2 other.id hplaced other.id
      (List.mem_map.2 ⟨other, hother, rfl⟩) rfl
  · exact (supplied_iff hv hw (fun p hp => hmem p (List.mem_append_left _ hp)) hleft).1 hsupplied

/-- No other order of the steps that respects lineage is lexicographically less. -/
theorem eq_or_lex_of_respects (hv : v.Settled c) (hw : w = prune (terminals.map (·.address)) v)
    (h : Order.ofSurvey w = .ok placed) {order : List Step} (hperm : order.Perm placed)
    (hrespects : v.Respects order) :
    placed.map (·.id) = order.map (·.id) ∨
      List.Lex (· < ·) (placed.map (·.id)) (order.map (·.id)) := by
  have hids := Order.map_id_of_ofSurvey h
  have hmem : ∀ t ∈ order, t ∈ Order.steps w :=
    fun t ht => (Order.mem_of_ofSurvey h).1 (hperm.mem_iff.1 ht)
  have hnodup : (order.map (·.id)).Nodup := by
    rw [(hperm.map _).nodup_iff, hids]
    exact Order.nodup_ids w
  rw [hids]
  refine (Order.ids_greedy w).eq_or_lex (hids ▸ hperm.map _) fun before id after hsplit => ?_
  obtain ⟨first, rest, rfl, rfl, hrest⟩ := List.map_eq_append_iff.1 hsplit
  obtain ⟨s, last, rfl, rfl, -⟩ := List.map_eq_cons_iff.1 hrest
  have hs := hmem s (by simp)
  rw [List.map_append] at hnodup
  refine ⟨fun hplaced => ?_, s, hs, rfl, ?_⟩
  · exact (List.nodup_append.1 hnodup).2.2 s.id hplaced s.id (by simp) rfl
  · exact (supplied_iff hv hw (fun p hp => hmem p (by simp [hp])) hs).1 (hrespects first s last rfl)

end Order

end Survey

namespace Session

variable {s : Session α} {terminals : List Asset}

/-- **The steps of a graph are what the terminals lead back to, in the least order that respects
lineage.**  Whatever the client has declared, and whichever handles it offers as terminals: the survey
`v` settles on one producer for an address, and

* the steps are the producers of the addresses behind the terminals, each once;
* every step comes after the producers of its inputs;
* each place holds the least of the steps that are left and whose producers are placed;
* of all orders of the steps that respect lineage, this one is lexicographically least;
* it is found in whatever order the producers, the steps and their readers are listed. -/
theorem steps_of_graph (hs : s.Reachable) (hterminals : ∀ t ∈ terminals, s.Offers (.asset t))
    {g : Graph} (h : s.graph terminals = .ok g) :
    ∃ v, Survey.follow s.catalog (s.alive (terminals.filterMap (·.lineage))) .empty terminals = .ok v ∧
      (∀ a p, v.producers.lookup a = some p → p.output.address = a) ∧
      (∀ t, t ∈ g.steps ↔ ∃ a, v.Behind terminals a ∧ v.producers.lookup a = some t) ∧
      (g.steps.map (·.id)).Nodup ∧
      v.Respects g.steps ∧
      (∀ before t after, g.steps = before ++ t :: after →
        ∀ other ∈ t :: after, v.Supplied before other → t.id ≤ other.id) ∧
      (∀ order, order.Perm g.steps → v.Respects order → g.steps.map (·.id) = order.map (·.id) ∨
        List.Lex (· < ·) (g.steps.map (·.id)) (order.map (·.id))) ∧
      ∀ w : Survey, w.producers.Perm (Survey.prune (terminals.map (·.address)) v).producers →
        ∀ listed counted : List Step, listed.Perm (Order.steps w) → counted.Perm (Order.steps w) →
          Order.settle (Order.readers w listed) counted.length (Order.start w counted) =
            g.steps.map (·.id) := by
  obtain ⟨home, hsound⟩ := hs.sound
  have hknown : ∀ t ∈ terminals, s.catalog.Knows home t := fun t ht => (hterminals t ht).known hsound
  obtain ⟨v', hv', hshows⟩ := Graph.shows_of_ofTerminals hsound.catalog hknown h
  obtain ⟨v, hfollow, rfl⟩ := Survey.ofTerminals_eq_ok_iff.1 hv'
  have hfits := Survey.fits_of_follow hsound.catalog hknown hfollow
  have hsettled := Survey.settled_of_follow hfollow
  have hpruned := hsettled.prune (terminals.map (·.address))
  have hsteps := hshows.steps
  refine ⟨v, hfollow, fun a p hp => hfits.output _ (mem_of_lookup hp), fun t => ?_,
    hshows.ordered.ids, Survey.respects_of_ofSurvey hsettled rfl hsteps,
    fun before t after hsplit other hother hsupplied => ?_,
    fun order hperm horder => Survey.eq_or_lex_of_respects hsettled rfl hsteps hperm horder,
    fun w hperm listed counted hlisted hcounted => ?_⟩
  · rw [Order.mem_of_ofSurvey hsteps, Order.mem_steps hpruned.consistent]
    exact exists_congr fun a => by rw [← hpruned.lookup_iff, Survey.lookup_prune_iff]
  · exact Survey.least_of_ofSurvey hsettled rfl (hsplit ▸ hsteps) hother hsupplied
  · rw [Order.map_id_of_ofSurvey hsteps]
    exact (Order.settle_eq_ids hpruned.consistent hpruned.keys hperm hlisted hcounted
      (Nat.le_refl _)).1

/-- The newer step of a session comes first where the older one reads from it. -/
theorem steps_of_graph_late :
    let s := Late.session (.plain "copy" ["x"] fun _ => ⟨.ok .empty, false, []⟩)
    ∃ g v, s.graph [Late.report.producedBy 1] = .ok g ∧ g.steps.map (·.id) = [2, 1] ∧
      Survey.follow s.catalog (s.alive [1]) .empty [Late.report.producedBy 1] = .ok v ∧
      v.Respects g.steps := by
  obtain ⟨v, hv, -, -, -, hrespects, -⟩ := steps_of_graph
    (Late.reachable (t := .plain "copy" ["x"] fun _ => ⟨.ok .empty, false, []⟩) rfl)
    (Late.offers _) (Late.graph_eq _)
  exact ⟨_, v, Late.graph_eq _, rfl, hv, hrespects⟩

/-- **A graph is refused as cyclic exactly if an address behind the terminals depends on itself.**
For whatever a client has declared and offers as terminals, where the survey `v` of what lies behind
them exists:

* what is reported are the names of a closed walk behind the terminals, each address of which reads the
  next one;
* once the search for a closed walk accepts, every step is placed and no link is refused;
* no count of what a step still waits for is lowered below zero, in whatever order the producers, the
  steps and their readers are listed. -/
theorem cycle_iff (hs : s.Reachable) (hterminals : ∀ t ∈ terminals, s.Offers (.asset t)) {v : Survey}
    (hv : Survey.ofTerminals s.catalog (s.alive (terminals.filterMap (·.lineage))) terminals = .ok v) :
    ((∃ path, s.graph terminals = .error (.cycle path)) ↔
      ∃ a, v.Behind terminals a ∧ TransGen v.Reads a a) ∧
    (∀ path, s.graph terminals = .error (.cycle path) → ∃ walk : List Address,
      path = walk.map (·.name) ∧ 2 ≤ walk.length ∧ walk.head? = walk.getLast? ∧
        walk.IsChain v.Reads ∧ ∀ a ∈ walk, v.Behind terminals a) ∧
    (∀ safe, Walk.cycleFrom (Survey.sources v.producers) [] [] (terminals.map (·.address)) = .ok safe →
      ∃ placed g, Order.ofSurvey v = .ok placed ∧
        placed.foldlM (Graph.addStep v) (.bare (terminals.map (·.address))) = .ok g) ∧
    ∀ w : Survey, w.producers.Perm v.producers →
      ∀ listed counted : List Step, listed.Perm (Order.steps w) → counted.Perm (Order.steps w) →
        Order.settle? (Order.readers w listed) counted.length (Order.start w counted) =
          some (Order.ids v) := by
  obtain ⟨home, hsound⟩ := hs.sound
  have hknown : ∀ t ∈ terminals, s.catalog.Knows home t := fun t ht => (hterminals t ht).known hsound
  have hsettled := Survey.settled_of_ofTerminals hv
  have hwalk : ∀ path, s.graph terminals = .error (.cycle path) → ∃ walk,
      Walk.cycleFrom (Survey.sources v.producers) [] [] (terminals.map (·.address)) = .error walk ∧
        path = walk.map (·.name) := by
    intro path hpath
    cases hfound : Walk.cycleFrom (Survey.sources v.producers) [] [] (terminals.map (·.address)) with
    | error walk =>
      rw [graph, Graph.ofTerminals_of_survey hv hfound] at hpath
      exact ⟨walk, rfl, (Fault.cycle.inj (Except.error.inj hpath)).symm⟩
    | ok safe =>
      obtain ⟨g, hg, -⟩ := Graph.ofTerminals_eq_ok hsound.catalog hknown hv hfound
      rw [graph, hg] at hpath
      exact absurd hpath (by simp)
  refine ⟨⟨?_, ?_⟩, fun path hpath => ?_, fun safe hsafe => ?_,
    fun w hperm listed counted hlisted hcounted => ?_⟩
  · rintro ⟨path, hpath⟩
    obtain ⟨walk, hfound, -⟩ := hwalk path hpath
    exact (Survey.closed_of_cycleFrom hfound).2.2
  · rintro ⟨a, ha, hcycle⟩
    cases hfound : Walk.cycleFrom (Survey.sources v.producers) [] [] (terminals.map (·.address)) with
    | error walk => exact ⟨_, Graph.ofTerminals_of_survey hv hfound⟩
    | ok safe => exact absurd hcycle (Survey.founded_of_cycleFrom hfound ha).not_transGen
  · obtain ⟨walk, hfound, rfl⟩ := hwalk path hpath
    obtain ⟨hclosed, hbehind, -⟩ := Survey.closed_of_cycleFrom hfound
    have hchain := hclosed.chain
    rw [Survey.leads_sources] at hchain
    exact ⟨walk, rfl, hclosed.two_le, hclosed.ends, hchain, hbehind⟩
  · obtain ⟨placed, links, hplaced, hlinks, -⟩ :=
      Graph.build_ok hsound.catalog hknown hv hsafe
    exact ⟨placed, _, hplaced, hlinks⟩
  · exact (Order.settle_eq_ids hsettled.consistent hsettled.keys hperm hlisted hcounted
      (Nat.le_refl _)).2

/-- The step that closes a cycle: the report is read for the raw data. -/
def Late.newest (t : Task) : Step := ⟨3, t, [("x", Late.report.producedBy 1)], Late.raw, true⟩

/-- The session after a third step, which closes a cycle. -/
def Late.closed (t : Task) : Session Unit where
  catalog := ⟨[Late.newest t, Late.newer t, Late.older t], [(0, 3), (1, 2), (2, 1)], 3⟩
  held := [("raw", .asset (Late.raw.producedBy 3)), ("clean", .asset (Late.clean.producedBy 2)),
    ("report", .asset (Late.report.producedBy 1))]

/-- A client can reach the session, with any task of one parameter. -/
theorem Late.reachable_closed {t : Task} (ht : t.params = ["x"]) : (Late.closed t).Reachable :=
  .replace "raw" (Late.reachable ht)
    (.single (.of_item? "report" rfl) (transform_of_params (a := Late.report.producedBy 1) ht))
    (.of_item? "raw" rfl)

theorem Late.offers_closed (t : Task) :
    ∀ a ∈ [Late.report.producedBy 1], (Late.closed t).Offers (.asset a) := by
  intro a ha
  obtain rfl := List.mem_singleton.1 ha
  exact .of_item? "report" rfl

theorem Late.closed_eq (t : Task) : (Late.closed t).graph [Late.report.producedBy 1] =
    .error (.cycle ["report", "clean", "raw", "report"]) := by
  cbv

/-- What the survey behind the report settles on. -/
def Late.survey (t : Task) : Survey where
  handles := [(Late.report.address, Late.report.producedBy 1), (Late.clean.address, Late.clean),
    (Late.raw.address, Late.raw)]
  producers := [(Late.report.address, Late.older t), (Late.clean.address, Late.newer t),
    (Late.raw.address, Late.newest t)]
  expanded := [3, 2, 1]

theorem Late.survey_eq (t : Task) : Survey.ofTerminals (Late.closed t).catalog
    ((Late.closed t).alive ([Late.report.producedBy 1].filterMap (·.lineage)))
    [Late.report.producedBy 1] = .ok (Late.survey t) := by
  cbv

/-- The report depends on itself once the raw data is made from it. -/
theorem cycle_iff_late :
    let s := Late.closed (.plain "copy" ["x"] fun _ => ⟨.ok .empty, false, []⟩)
    ∃ v, Survey.ofTerminals s.catalog (s.alive [1]) [Late.report.producedBy 1] = .ok v ∧
      s.graph [Late.report.producedBy 1] =
        .error (.cycle ["report", "clean", "raw", "report"]) ∧
      ∃ a, v.Behind [Late.report.producedBy 1] a ∧ TransGen v.Reads a a := by
  have hreachable : (Late.closed (.plain "copy" ["x"] fun _ => ⟨.ok .empty, false, []⟩)).Reachable :=
    Late.reachable_closed rfl
  obtain ⟨hiff, -⟩ := cycle_iff hreachable (Late.offers_closed _) (Late.survey_eq _)
  exact ⟨_, Late.survey_eq _, Late.closed_eq _, hiff.1 ⟨_, Late.closed_eq _⟩⟩

end Session

end Provenance
