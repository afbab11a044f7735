import Provenance.Proofs.Queries

/-!
# Adding terminals

A graph over more terminals has more steps, and they come in between: which steps are ready, and which of
them is least, changes at every place.  Still the steps that were there before keep their order.  For them
only their own producers count, and these are among them; so the order of execution, read for them alone,
is again the greedy one (`Order.Greedy.filter`), of which there is only one.

This rests on the producers.  A further terminal can bring in another handle to an address, and with it a
step that takes the place of the producer there; then the smaller graph is not a part of the larger one.
Where every address of the smaller graph keeps its producer, or has none in both, it is
(`Session.steps_of_more`).
-/

namespace Provenance

universe u

namespace Graph

variable {g g' : Graph}

/-- A step of the graph that is not placed, while the producers of its inputs are. -/
def Next (g : Graph) (placed : List StepId) (id : StepId) : Prop :=
  id ∉ placed ∧ ∃ s ∈ g.steps, s.id = id ∧
    ∀ i ∈ s.inputs, ∀ p, g.producer? i.2.address = some p → p.id ∈ placed

/-- **The steps of a graph are in the greedy order** for the producers that the graph itself shows. -/
theorem greedy_of_ofTerminals {home : ℕ → Address} {c : Catalog} {alive : List StepId}
    {terminals : List Asset} (hc : c.Sound home) (hterminals : ∀ t ∈ terminals, c.Knows home t)
    (h : ofTerminals c alive terminals = .ok g) : Order.Greedy g.Next [] (g.steps.map (·.id)) := by
  obtain ⟨v, hv, hshows⟩ := shows_of_ofTerminals hc hterminals h
  rw [Order.map_id_of_ofSurvey hshows.steps]
  refine (Order.ids_greedy v).congr fun placed id => and_congr_right fun _ => ?_
  refine exists_congr fun s => and_congr (Order.mem_of_ofSurvey hshows.steps).symm (and_congr_right fun _ => ?_)
  constructor
  · intro hready i hi p hp
    rw [producer?_eq_some_iff_lookup hc hterminals hv h] at hp
    exact hready p.id (Order.mem_upstream.2 ⟨i, hi, p, hp, rfl⟩)
  · intro hready p hp
    obtain ⟨i, hi, t, ht, rfl⟩ := Order.mem_upstream.1 hp
    exact hready i hi t ((producer?_eq_some_iff_lookup hc hterminals hv h).2 ht)

/-- Steps of a sound graph are found by their numbers. -/
theorem Sound.filterMap_step? (hg : g.Sound) {l : List Step} (hl : ∀ s ∈ l, s ∈ g.steps) :
    (l.map (·.id)).filterMap g.step? = l := by
  rw [List.filterMap_map]
  exact (List.filterMap_congr fun s hs => (hg.step?_eq_some_iff).2 ⟨hl s hs, rfl⟩).trans
    List.filterMap_some

/-- Two graphs show the same producers for all that the steps of the first one touch. -/
def Within (g g' : Graph) : Prop :=
  ∀ s ∈ g.steps, ∀ a ∈ s.touched, g'.producer? a = g.producer? a

section

variable (hg : g.Sound) (hg' : g'.Sound) (hwithin : g.Within g')

include hg hg' hwithin

/-- The larger graph has all steps of the smaller one. -/
theorem Within.mem_steps {s : Step} (hs : s ∈ g.steps) : s ∈ g'.steps := by
  have hproducer := hwithin s hs s.output.address (Step.mem_touched_iff.2 (.inr rfl))
  rw [hg.producer?_output hs] at hproducer
  exact ((hg'.producer?_eq_some_iff).1 hproducer).1

/-- **A step of the smaller graph is next in the larger one exactly if it is next among its own.** -/
theorem Within.next_iff (placed : List StepId) {id : StepId} (hid : id ∈ g.steps.map (·.id)) :
    g'.Next placed id ↔ g.Next (placed.filter (· ∈ g.steps.map (·.id))) id := by
  obtain ⟨s, hs, rfl⟩ := List.mem_map.1 hid
  have hs' : s ∈ g'.steps := hwithin.mem_steps hg hg' hs
  have hinput : ∀ i ∈ s.inputs, g'.producer? i.2.address = g.producer? i.2.address := fun i hi =>
    hwithin s hs i.2.address (Step.mem_touched_iff.2 (.inl ⟨i, hi, rfl⟩))
  constructor
  · rintro ⟨hfresh, t, ht, heq, hready⟩
    obtain rfl := hg'.eq_of_id_eq ht hs' heq
    refine ⟨fun hmem => hfresh (List.mem_of_mem_filter hmem), t, hs, rfl, fun i hi p hp => ?_⟩
    have hplaced : p.id ∈ placed := hready i hi p ((hinput i hi).trans hp)
    have hown : p.id ∈ g.steps.map (·.id) :=
      List.mem_map.2 ⟨p, ((hg.producer?_eq_some_iff).1 hp).1, rfl⟩
    exact List.mem_filter.2 ⟨hplaced, decide_eq_true hown⟩
  · rintro ⟨hfresh, t, ht, heq, hready⟩
    obtain rfl := hg.eq_of_id_eq ht hs heq
    refine ⟨fun hmem => hfresh (List.mem_filter.2 ⟨hmem, decide_eq_true hid⟩), t, hs', rfl,
      fun i hi p hp => ?_⟩
    exact List.mem_of_mem_filter (hready i hi p ((hinput i hi).symm.trans hp))

/-- **The steps of the smaller graph are those that the larger one has of it, in the order of the larger
one.** -/
theorem Within.filter_steps (hgreedy : Order.Greedy g.Next [] (g.steps.map (·.id)))
    (hgreedy' : Order.Greedy g'.Next [] (g'.steps.map (·.id))) :
    g'.steps.filter (·.id ∈ g.steps.map (·.id)) = g.steps := by
  have hinside : ∀ (placed : List ℕ) id, g.Next (placed.filter (· ∈ g.steps.map (·.id))) id →
      id ∈ g.steps.map (·.id) := by
    rintro placed id ⟨-, s, hs, rfl, -⟩
    exact List.mem_map.2 ⟨s, hs, rfl⟩
  have hrestricted := hgreedy'.filter (p := (· ∈ g.steps.map (·.id))) hinside
    fun placed id hid => hwithin.next_iff hg hg' placed hid
  have hids := hrestricted.unique hgreedy
  rw [List.filter_map] at hids
  -- both are steps of the larger graph, where a number is the number of one step
  calc g'.steps.filter (·.id ∈ g.steps.map (·.id))
      = ((g'.steps.filter (·.id ∈ g.steps.map (·.id))).map (·.id)).filterMap g'.step? :=
        (hg'.filterMap_step? fun s hs => List.mem_of_mem_filter hs).symm
    _ = (g.steps.map (·.id)).filterMap g'.step? := congrArg (List.filterMap g'.step?) hids
    _ = g.steps := hg'.filterMap_step? fun s hs => hwithin.mem_steps hg hg' hs

end

end Graph

namespace Session

variable {α : Type u} {s s' : Session α} {terminals more : List Asset}

/-- **More terminals leave the steps that are there in their order**, where every address of the smaller
graph keeps its producer, or has none in both.  The larger graph has each of these steps once, and without
its other steps it is in the order of the smaller one.  It may be built later, when more is declared. -/
theorem steps_of_more (hs : s.Reachable) (hterminals : ∀ a ∈ terminals, s.Offers (.asset a)) {g : Graph}
    (h : s.graph terminals = .ok g) (hs' : s'.Reachable)
    (hmore : ∀ a ∈ terminals ++ more, s'.Offers (.asset a)) {g' : Graph}
    (h' : s'.graph (terminals ++ more) = .ok g')
    (hsame : ∀ a ∈ g.assets, g'.producer? a.address = g.producer? a.address) :
    g'.steps.filter (·.id ∈ g.steps.map (·.id)) = g.steps ∧ g.steps.Sublist g'.steps ∧
      (g'.steps.map (·.id)).Nodup := by
  obtain ⟨home, hsound, hknown⟩ := hs.exists_knows hterminals
  obtain ⟨home', hsound', hknown'⟩ := hs'.exists_knows hmore
  have hg := Graph.sound_of_ofTerminals hsound.catalog hknown h
  have hg' := Graph.sound_of_ofTerminals hsound'.catalog hknown' h'
  have hwithin : g.Within g' := by
    intro t ht a ha
    have htouched : a ∈ g.assets.map (·.address) :=
      ((Graph.addresses_of_ofTerminals hsound.catalog hknown h).2 a).2
        (List.mem_append_left _ (List.mem_flatMap.2 ⟨t, ht, ha⟩))
    obtain ⟨x, hx, rfl⟩ := List.mem_map.1 htouched
    exact hsame x hx
  have hfilter := hwithin.filter_steps hg hg'
    (Graph.greedy_of_ofTerminals hsound.catalog hknown h)
    (Graph.greedy_of_ofTerminals hsound'.catalog hknown' h')
  refine ⟨hfilter, ?_, hg'.ordered.ids⟩
  rw [← hfilter]
  exact List.filter_sublist

/-! ## A session with a branch -/

namespace Branch

open Late (raw clean)

/-- What is counted from the raw data. -/
def stats : Asset := ⟨⟨"stats", "lake"⟩, none, none, none, 2⟩

/-- What is told of the clean data. -/
def report : Asset := ⟨⟨"report", "lake"⟩, none, none, none, 3⟩

/-- The step into the clean data. -/
def tidy (t : Task) : Step := ⟨1, t, [("x", raw)], clean, false⟩

/-- The step into the counts. -/
def count (t : Task) : Step := ⟨2, t, [("x", raw)], stats, false⟩

/-- The step into the report. -/
def tell (t : Task) : Step := ⟨3, t, [("x", clean.producedBy 1)], report, false⟩

/-- The session after some of the steps, whose handles are kept under further names. -/
def after (steps : List Step) (handles : List (String × Asset)) : Session Unit :=
  .ofSteps 4 steps ([("raw", raw), ("clean", clean), ("stats", stats), ("report", report)] ++ handles)

/-- The session after all steps. -/
def session (t : Task) : Session Unit :=
  after [tell t, count t, tidy t]
    [("1", clean.producedBy 1), ("2", stats.producedBy 2), ("3", report.producedBy 3)]

theorem reachable {t : Task} (ht : t.params = ["x"]) : (session t).Reachable := by
  have hdraft : ∀ a : Asset, a.transform t = .ok ⟨t, [("x", a)]⟩ := fun a => transform_of_params ht
  have hdeclared : (after [] []).Reachable :=
    .declare "report" "lake" "report" (.declare "stats" "lake" "stats"
      (.declare "clean" "lake" "clean" (.declare "raw" "lake" "raw" .start)))
  have htidy : (after [] []).put ⟨t, [("x", raw)]⟩ clean =
      .ok (clean.producedBy 1, after [tidy t] []) := by
    cbv
  have htidied : (after [tidy t] [("1", clean.producedBy 1)]).Reachable :=
    .put "1" hdeclared (.single (.of_item? "raw" rfl) (hdraft _)) (.of_item? "clean" rfl) htidy
  have hcount : (after [tidy t] [("1", clean.producedBy 1)]).put ⟨t, [("x", raw)]⟩ stats =
      .ok (stats.producedBy 2, after [count t, tidy t] [("1", clean.producedBy 1)]) := by
    cbv
  have hcounted : (after [count t, tidy t]
      [("1", clean.producedBy 1), ("2", stats.producedBy 2)]).Reachable :=
    .put "2" htidied (.single (.of_item? "raw" rfl) (hdraft _)) (.of_item? "stats" rfl) hcount
  have htell : (after [count t, tidy t] [("1", clean.producedBy 1), ("2", stats.producedBy 2)]).put
      ⟨t, [("x", clean.producedBy 1)]⟩ report = .ok (report.producedBy 3,
        after [tell t, count t, tidy t] [("1", clean.producedBy 1), ("2", stats.producedBy 2)]) := by
    cbv
  exact .put "3" hcounted (.single (.of_item? "1" rfl) (hdraft _)) (.of_item? "report" rfl) htell

theorem offers (t : Task) : ∀ a ∈ [report.producedBy 3, stats.producedBy 2],
    (session t).Offers (.asset a) := by
  intro a ha
  simp only [List.mem_cons, List.not_mem_nil, or_false] at ha
  rcases ha with rfl | rfl
  · exact .of_item? "3" rfl
  · exact .of_item? "2" rfl

/-- The graph behind the report. -/
def smaller (t : Task) : Graph :=
  ⟨[report.address], [raw, clean, report], [tidy t, tell t], (tidy t).links ++ (tell t).links⟩

/-- The graph behind the report and the counts. -/
def larger (t : Task) : Graph :=
  ⟨[report.address, stats.address], [raw, clean, stats, report], [tidy t, count t, tell t],
    (tidy t).links ++ (count t).links ++ (tell t).links⟩

theorem smaller_eq (t : Task) : (session t).graph [report.producedBy 3] = .ok (smaller t) := by
  cbv

theorem larger_eq (t : Task) :
    (session t).graph ([report.producedBy 3] ++ [stats.producedBy 2]) = .ok (larger t) := by
  cbv

end Branch

/-- The step into the counts comes in between the two that the report is made by. -/
theorem steps_of_more_branch :
    let t := Late.copy
    (Branch.session t).graph [Branch.report.producedBy 3] = .ok (Branch.smaller t) ∧
      (Branch.session t).graph ([Branch.report.producedBy 3] ++ [Branch.stats.producedBy 2]) =
        .ok (Branch.larger t) ∧
      (Branch.larger t).steps.map (·.id) = [1, 2, 3] ∧
      (Branch.larger t).steps.filter (·.id ∈ (Branch.smaller t).steps.map (·.id)) =
        (Branch.smaller t).steps := by
  intro t
  have hs : (Branch.session t).Reachable := Branch.reachable rfl
  have hsame : ∀ a ∈ (Branch.smaller t).assets,
      (Branch.larger t).producer? a.address = (Branch.smaller t).producer? a.address := by
    simp only [Branch.smaller, List.forall_mem_cons, List.not_mem_nil, false_implies, implies_true,
      and_true]
    exact ⟨by cbv, by cbv, by cbv⟩
  obtain ⟨hfilter, -, -⟩ := steps_of_more hs (fun a ha => Branch.offers t a (List.mem_cons.2
    (.inl (List.mem_singleton.1 ha)))) (Branch.smaller_eq t) hs (Branch.offers t) (Branch.larger_eq t) hsame
  exact ⟨Branch.smaller_eq t, Branch.larger_eq t, rfl, hfilter⟩

end Session

end Provenance
