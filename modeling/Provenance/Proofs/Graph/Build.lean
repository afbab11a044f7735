import Mathlib.Data.List.Nodup
import Provenance.Proofs.Graph.Links
import Provenance.Proofs.Order
import Provenance.Proofs.Survey

/-!
# From a survey to a graph

A graph is built in three parts that can fail: the search for a closed walk, the order of the steps, and
the links.  In a sound catalog only the first one fails.  Where no closed walk is found, what lies behind
the terminals is well founded, so

* every step is placed (`mem_ids_of_founded`), and
* the steps are `Ordered`, hence no link is refused (`ofTerminals_eq_ok`).

So a cycle is reported exactly if some address behind the terminals depends on itself
(`exists_cycleFrom_iff`, `ofTerminals_of_survey`).
-/

namespace Provenance

open Relation (ReflTransGen TransGen)

variable {c : Catalog} {alive : List StepId} {terminals : List Asset} {v : Survey}

namespace Survey

theorem ofTerminals_eq_ok_iff :
    ofTerminals c alive terminals = .ok v ↔ ∃ u, follow c alive empty terminals = .ok u ∧
      v = prune (terminals.map (·.address)) u := by
  unfold ofTerminals
  cases follow c alive empty terminals with
  | error fault => simp [Except.map]
  | ok u => simp [Except.map, eq_comm]

theorem settled_of_ofTerminals (h : ofTerminals c alive terminals = .ok v) : v.Settled c := by
  obtain ⟨u, hu, rfl⟩ := ofTerminals_eq_ok_iff.1 h
  exact (settled_of_follow hu).prune _

theorem Settled.consistent (h : v.Settled c) : v.Consistent := by
  intro e he f hf hid
  have hboth := h.step e he
  rw [hid, h.step f hf] at hboth
  exact (Option.some.inj hboth).symm

/-- What a survey keeps lies behind the terminals. -/
theorem behind_of_lookup (h : ofTerminals c alive terminals = .ok v) {a : Address} {s : Step}
    (hs : v.producers.lookup a = some s) : v.Behind terminals a := by
  obtain ⟨u, -, rfl⟩ := ofTerminals_eq_ok_iff.1 h
  exact behind_prune_iff.2 (lookup_prune_iff.1 hs).1

/-- The producers that a survey of a sound catalog keeps write to their addresses. -/
theorem output_of_ofTerminals {home : ℕ → Address} (hc : c.Sound home)
    (hterminals : ∀ t ∈ terminals, c.Knows home t) (h : ofTerminals c alive terminals = .ok v)
    {a : Address} {s : Step} (hs : v.producers.lookup a = some s) : s.output.address = a := by
  obtain ⟨u, hu, rfl⟩ := ofTerminals_eq_ok_iff.1 h
  exact (fits_of_follow hc hterminals hu).output _ (mem_of_lookup (lookup_prune_iff.1 hs).2)

/-! ## Closed walks -/

/-- What starts no infinite walk of reading. -/
def Founded (v : Survey) (a : Address) : Prop := Acc (fun b a => v.Reads a b) a

/-- Where no closed walk is found, what lies behind the terminals is well founded. -/
theorem founded_of_cycleFrom {safe : List Address}
    (h : Walk.cycleFrom (sources v.producers) [] [] (terminals.map (·.address)) = .ok safe)
    {a : Address} (ha : v.Behind terminals a) : v.Founded a := by
  obtain ⟨hacc, -, hwork⟩ := Walk.cycleFrom_ok h (by simp)
  rw [leads_sources] at hacc
  obtain ⟨t, ht, hta⟩ := ha
  have htop : v.Founded t.address := hacc _ (hwork _ (List.mem_map.2 ⟨t, ht, rfl⟩))
  induction hta with
  | refl => exact htop
  | tail _ hstep ih => exact ih.inv hstep

theorem Founded.not_transGen {a : Address} (h : v.Founded a) : ¬ TransGen v.Reads a a := by
  rw [← leads_sources]
  refine Walk.not_transGen_self_of_acc ?_
  rwa [leads_sources]

/-- A closed walk that is found is one of reading, behind the terminals. -/
theorem closed_of_cycleFrom {walk : List Address}
    (h : Walk.cycleFrom (sources v.producers) [] [] (terminals.map (·.address)) = .error walk) :
    Walk.Closed (sources v.producers) walk ∧ (∀ a ∈ walk, v.Behind terminals a) ∧
      ∃ a, v.Behind terminals a ∧ TransGen v.Reads a a := by
  have hwork : ∀ a ∈ terminals.map (·.address), v.Behind terminals a := by
    intro a ha
    obtain ⟨t, ht, rfl⟩ := List.mem_map.1 ha
    exact .of_mem ht
  have hreads : ∀ a b, v.Behind terminals a → Walk.Leads (sources v.producers) a b →
      v.Behind terminals b := fun a b ha hab => ha.reads (leads_sources_iff.1 hab)
  obtain ⟨hclosed, a, hhead, ha⟩ :=
    Walk.cycleFrom_error h hreads hwork List.isChain_nil (by simp)
  have hcycle := hclosed.transGen_head hhead
  rw [leads_sources] at hcycle
  refine ⟨hclosed, Walk.forall_mem_of_isChain hreads hclosed.chain fun b hb => ?_, a, ha, hcycle⟩
  rwa [Option.mem_unique hb hhead]

/-- The search finds a closed walk exactly if an address behind the terminals depends on itself. -/
theorem exists_cycleFrom_iff :
    (∃ walk, Walk.cycleFrom (sources v.producers) [] [] (terminals.map (·.address)) = .error walk) ↔
      ∃ a, v.Behind terminals a ∧ TransGen v.Reads a a := by
  constructor
  · rintro ⟨walk, hwalk⟩
    exact (closed_of_cycleFrom hwalk).2.2
  · rintro ⟨a, ha, hcycle⟩
    cases hfound : Walk.cycleFrom (sources v.producers) [] [] (terminals.map (·.address)) with
    | error walk => exact ⟨walk, rfl⟩
    | ok safe => exact absurd hcycle (founded_of_cycleFrom hfound ha).not_transGen

end Survey

namespace Order

open Survey (Founded)

/-- A step whose output is well founded is placed. -/
theorem mem_ids_of_founded (hv : v.Consistent) {a : Address} (ha : v.Founded a) :
    ∀ {s : Step}, v.producers.lookup a = some s → s.id ∈ ids v := by
  induction ha with
  | intro a _ ih =>
    intro s hs
    have hmem : s ∈ steps v := (mem_steps hv).2 ⟨a, mem_of_lookup hs⟩
    by_contra hout
    refine (ids_greedy v).not_ready_end s.id ⟨by simpa using hout, s, hmem, rfl, fun p hp => ?_⟩
    obtain ⟨i, hi, t, ht, rfl⟩ := mem_upstream.1 hp
    exact ih i.2.address ⟨s, hs, i, hi, rfl⟩ ht

/-- Where everything is well founded, every step is placed. -/
theorem exists_ofSurvey (hv : v.Consistent)
    (hfounded : ∀ a s, v.producers.lookup a = some s → v.Founded a)
    (hkeys : (v.producers.map (·.1)).Nodup) : ∃ placed, ofSurvey v = .ok placed := by
  refine ⟨_, ofSurvey_eq_ok_iff.2 ⟨fun s hs => ?_, rfl⟩⟩
  obtain ⟨a, ha⟩ := (mem_steps hv).1 hs
  have hlookup := lookup_of_mem hkeys ha
  exact mem_ids_of_founded hv (hfounded a s hlookup) hlookup

/-- The steps that a step reads from are placed before it. -/
theorem mem_before_of_ofSurvey {before after : List Step} {s : Step}
    (h : ofSurvey v = .ok (before ++ s :: after)) {p : StepId} (hp : p ∈ upstream v s) :
    p ∈ before.map (·.id) := by
  have hids := map_id_of_ofSurvey h
  rw [List.map_append, List.map_cons] at hids
  obtain ⟨-, t, ht, hid, hready⟩ := ((ids_greedy v).of_split hids.symm).1
  have hs : s ∈ steps v := (mem_of_ofSurvey h).1 (by simp)
  rw [eq_of_id_eq (nodup_steps v) ht hs hid] at hready
  exact hready p hp

/-- The steps that are put in order are those of the catalog with the numbers of the order. -/
theorem eq_filterMap_of_ofSurvey (hv : v.Settled c) {placed : List Step} (h : ofSurvey v = .ok placed) :
    placed = (ids v).filterMap c.step? := by
  have hstep : ∀ s ∈ placed, c.step? s.id = some s := by
    intro s hs
    obtain ⟨a, ha⟩ := (mem_steps hv.consistent).1 ((mem_of_ofSurvey h).1 hs)
    exact hv.step _ ha
  rw [← map_id_of_ofSurvey h, List.filterMap_map]
  exact ((List.filterMap_congr hstep).trans List.filterMap_some).symm

/-- What holds of an element and all that come after it holds pairwise. -/
theorem pairwise_of_split {R : Step → Step → Prop} :
    ∀ {l : List Step}, (∀ before s after, l = before ++ s :: after → ∀ t ∈ after, R s t) →
      l.Pairwise R
  | [], _ => List.Pairwise.nil
  | s :: l, h => List.pairwise_cons.2 ⟨h [] s l rfl, pairwise_of_split fun before t after hsplit =>
      h (s :: before) t after (by rw [hsplit, List.cons_append])⟩

/-- **The steps of a survey whose producers write to their addresses are ordered.** -/
theorem ordered_of_ofSurvey (hv : v.Settled c)
    (houtput : ∀ a s, v.producers.lookup a = some s → s.output.address = a) {placed : List Step}
    (h : ofSurvey v = .ok placed) : Graph.Ordered placed := by
  have hids : (placed.map (·.id)).Nodup := by
    rw [map_id_of_ofSurvey h]
    exact nodup_ids v
  have hlookup : ∀ s ∈ placed, v.producers.lookup s.output.address = some s := by
    intro s hs
    obtain ⟨a, ha⟩ := (mem_steps hv.consistent).1 ((mem_of_ofSurvey h).1 hs)
    have hs := hv.lookup_iff.2 ha
    rwa [houtput a s hs]
  have hwaits : ∀ s : Step, ∀ t ∈ placed, ∀ i ∈ s.inputs, i.2.address = t.output.address →
      t.id ∈ upstream v s :=
    fun s t ht i hi hreads => mem_upstream.2 ⟨i, hi, t, hreads ▸ hlookup t ht, rfl⟩
  refine ⟨hids, ?_, ?_, fun s hs i hi hreads => ?_⟩
  · refine (List.Nodup.of_map _ hids).map_on fun s hs t ht hst => ?_
    have hboth := hlookup s hs
    rw [hst, hlookup t ht] at hboth
    exact (Option.some.inj hboth).symm
  · refine pairwise_of_split fun before s after hsplit t ht i hi hreads => ?_
    subst hsplit
    have hbefore := mem_before_of_ofSurvey h (hwaits s t (by simp [ht]) i hi hreads)
    rw [List.map_append] at hids
    exact (List.nodup_append.1 hids).2.2 t.id hbefore t.id
      (List.mem_map.2 ⟨t, List.mem_cons_of_mem _ ht, rfl⟩) rfl
  · obtain ⟨before, after, rfl⟩ := List.append_of_mem hs
    have hbefore := mem_before_of_ofSurvey h (hwaits s s hs i hi hreads)
    rw [List.map_append] at hids
    exact (List.nodup_append.1 hids).2.2 s.id hbefore s.id (by simp) rfl

end Order

namespace Graph

/-- What a graph shows of a survey. -/
structure Shows (v : Survey) (terminals : List Asset) (g : Graph) : Prop where
  steps : Order.ofSurvey v = .ok g.steps
  ordered : Ordered g.steps
  links : ∀ l, l ∈ g.links ↔ ∃ s ∈ g.steps, l ∈ s.links
  assets : g.assets =
    (g.steps.flatMap Step.touched ++ terminals.map (·.address)).foldl (gather v) []
  terminals : g.terminals = terminals.map (·.address)

section Sound

variable {home : ℕ → Address}

/-- **Once no closed walk is found, nothing else can fail**: the steps are put in order, and no link is
refused. -/
theorem build_ok (hc : c.Sound home) (hterminals : ∀ t ∈ terminals, c.Knows home t)
    (hv : Survey.ofTerminals c alive terminals = .ok v) {safe : List Address}
    (hsafe : Walk.cycleFrom (Survey.sources v.producers) [] [] (terminals.map (·.address)) =
      .ok safe) :
    ∃ placed links, Order.ofSurvey v = .ok placed ∧
      placed.foldlM (addStep v) (bare (terminals.map (·.address))) =
        .ok ⟨terminals.map (·.address), (placed.flatMap Step.touched).foldl (gather v) [],
          placed, links⟩ ∧
      Ordered placed ∧ ∀ l, l ∈ links ↔ ∃ s ∈ placed, l ∈ s.links := by
  have hsettled := Survey.settled_of_ofTerminals hv
  obtain ⟨placed, hplaced⟩ := Order.exists_ofSurvey hsettled.consistent
    (fun a s hs => Survey.founded_of_cycleFrom hsafe (Survey.behind_of_lookup hv hs)) hsettled.keys
  have hordered := Order.ordered_of_ofSurvey hsettled
    (fun a s hs => Survey.output_of_ofTerminals hc hterminals hv hs) hplaced
  obtain ⟨links, hlinks, hspec⟩ := foldlM_addStep v (terminals.map (·.address)) hordered
  exact ⟨placed, links, hplaced, hlinks, hordered, hspec⟩

theorem ofTerminals_eq_ok (hc : c.Sound home) (hterminals : ∀ t ∈ terminals, c.Knows home t)
    (hv : Survey.ofTerminals c alive terminals = .ok v) {safe : List Address}
    (hsafe : Walk.cycleFrom (Survey.sources v.producers) [] [] (terminals.map (·.address)) =
      .ok safe) :
    ∃ g, ofTerminals c alive terminals = .ok g ∧ g.Shows v terminals := by
  obtain ⟨placed, links, hplaced, hlinks, hordered, hspec⟩ := build_ok hc hterminals hv hsafe
  refine ⟨⟨terminals.map (·.address), (placed.flatMap Step.touched ++
    terminals.map (·.address)).foldl (gather v) [], placed, links⟩, ?_,
    ⟨hplaced, hordered, hspec, rfl, rfl⟩⟩
  unfold ofTerminals
  simp only [hv, hsafe, hplaced, hlinks, foldl_touch, bind, Except.bind, pure, Except.pure]
  rw [List.foldl_append]

/-- What comes of building a graph depends on the search for a closed walk alone. -/
theorem ofTerminals_of_survey (hv : Survey.ofTerminals c alive terminals = .ok v)
    {walk : List Address}
    (hwalk : Walk.cycleFrom (Survey.sources v.producers) [] [] (terminals.map (·.address)) =
      .error walk) :
    ofTerminals c alive terminals = .error (.cycle (walk.map (·.name))) := by
  unfold ofTerminals
  simp only [hv, hwalk, bind, Except.bind]

/-- Where the survey exists, the graph is refused for a cycle only. -/
theorem exists_ofTerminals_or_cycle (hc : c.Sound home) (hterminals : ∀ t ∈ terminals, c.Knows home t)
    (hv : Survey.ofTerminals c alive terminals = .ok v) :
    (∃ g, ofTerminals c alive terminals = .ok g) ∨
      ∃ path, ofTerminals c alive terminals = .error (.cycle path) := by
  cases hwalk : Walk.cycleFrom (Survey.sources v.producers) [] [] (terminals.map (·.address)) with
  | error walk => exact .inr ⟨_, ofTerminals_of_survey hv hwalk⟩
  | ok safe =>
    obtain ⟨g, hg, -⟩ := ofTerminals_eq_ok hc hterminals hv hwalk
    exact .inl ⟨g, hg⟩

theorem survey_of_ofTerminals {g : Graph} (h : ofTerminals c alive terminals = .ok g) :
    ∃ v, Survey.ofTerminals c alive terminals = .ok v := by
  cases hv : Survey.ofTerminals c alive terminals with
  | ok v => exact ⟨v, rfl⟩
  | error fault =>
    unfold ofTerminals at h
    rw [hv] at h
    exact absurd h (by simp [bind, Except.bind])

/-- **A graph that is built shows its survey.** -/
theorem shows_of_ofTerminals (hc : c.Sound home) (hterminals : ∀ t ∈ terminals, c.Knows home t)
    {g : Graph} (h : ofTerminals c alive terminals = .ok g) :
    ∃ v, Survey.ofTerminals c alive terminals = .ok v ∧ g.Shows v terminals := by
  obtain ⟨v, hv⟩ := survey_of_ofTerminals h
  refine ⟨v, hv, ?_⟩
  cases hwalk : Walk.cycleFrom (Survey.sources v.producers) [] [] (terminals.map (·.address)) with
  | error walk =>
    rw [ofTerminals_of_survey hv hwalk] at h
    exact absurd h (by simp)
  | ok safe =>
    obtain ⟨g', hg', hshows⟩ := ofTerminals_eq_ok hc hterminals hv hwalk
    rw [h] at hg'
    rwa [Except.ok.inj hg']

/-- Every address that is touched has a handle. -/
theorem Shows.mem_handles {g : Graph} (hshows : g.Shows v terminals) (hc : c.Sound home)
    (hterminals : ∀ t ∈ terminals, c.Knows home t)
    (hv : Survey.ofTerminals c alive terminals = .ok v) {a : Address}
    (ha : a ∈ g.steps.flatMap Step.touched ++ terminals.map (·.address)) :
    ∃ known, v.handles.lookup a = some known ∧ c.Knows home known := by
  have hsettled := Survey.settled_of_ofTerminals hv
  obtain ⟨u, hu, rfl⟩ := Survey.ofTerminals_eq_ok_iff.1 hv
  have hfits := Survey.fits_of_follow hc hterminals hu
  have hkey : a ∈ u.handles.map (·.1) := by
    rcases List.mem_append.1 ha with ha | ha
    · obtain ⟨s, hs, ha⟩ := List.mem_flatMap.1 ha
      obtain ⟨b, hb⟩ := (Order.mem_steps hsettled.consistent).1
        ((Order.mem_of_ofSurvey hshows.steps).1 hs)
      have hmem : (b, s) ∈ u.producers := List.mem_of_mem_filter hb
      rcases List.mem_append.1 ha with ha | ha
      · obtain ⟨i, hi, rfl⟩ := List.mem_map.1 ha
        have hhandled := hfits.inputs s.id (hfits.expanded _ hmem) s (hsettled.step _ hb) i hi
        exact hhandled.resolve_right (by simp)
      · rw [List.mem_singleton.1 ha, hfits.output _ hmem]
        exact hfits.producers _ hmem
    · obtain ⟨t, ht, rfl⟩ := List.mem_map.1 ha
      exact (hfits.terminals t ht).resolve_right (by simp)
  obtain ⟨known, hknown⟩ := exists_lookup_of_mem_keys hkey
  exact ⟨known, hknown, (hfits.handles _ (mem_of_lookup hknown)).2⟩

/-- **What a graph holds fits the catalog**: its assets are known, and its steps are steps of it. -/
theorem known_of_ofTerminals (hc : c.Sound home) (hterminals : ∀ t ∈ terminals, c.Knows home t)
    {g : Graph} (h : ofTerminals c alive terminals = .ok g) :
    (∀ x ∈ g.assets, c.Knows home x) ∧ ∀ s ∈ g.steps, c.step? s.id = some s := by
  obtain ⟨v, hv, hshows⟩ := shows_of_ofTerminals hc hterminals h
  have hsettled := Survey.settled_of_ofTerminals hv
  constructor
  · intro x hx
    rw [hshows.assets] at hx
    obtain ⟨a, ha, rfl⟩ := (mem_foldl_gather _ hx).resolve_left (by simp)
    obtain ⟨known, hknown, hfits⟩ := hshows.mem_handles hc hterminals hv ha
    unfold handle
    rw [hknown]
    exact hfits.bare
  · intro s hs
    obtain ⟨a, ha⟩ := (Order.mem_steps hsettled.consistent).1
      ((Order.mem_of_ofSurvey hshows.steps).1 hs)
    exact hsettled.step _ ha

/-- **The assets of a graph** are those that its steps touch and its terminals, each once. -/
theorem addresses_of_ofTerminals (hc : c.Sound home) (hterminals : ∀ t ∈ terminals, c.Knows home t)
    {g : Graph} (h : ofTerminals c alive terminals = .ok g) :
    (g.assets.map (·.address)).Nodup ∧ ∀ a, a ∈ g.assets.map (·.address) ↔
      a ∈ g.steps.flatMap Step.touched ++ terminals.map (·.address) := by
  obtain ⟨v, hv, hshows⟩ := shows_of_ofTerminals hc hterminals h
  obtain ⟨u, hu, rfl⟩ := Survey.ofTerminals_eq_ok_iff.1 hv
  have hfits := Survey.fits_of_follow hc hterminals hu
  have hnone : (([] : List Asset).map (·.address)).Nodup := List.nodup_nil
  obtain ⟨hnodup, hmem⟩ := addresses_foldl_gather (fun e he => (hfits.handles e he).1)
    (g.steps.flatMap Step.touched ++ terminals.map (·.address)) hnone
  rw [hshows.assets]
  exact ⟨hnodup, fun a => (hmem a).trans (or_iff_right (by simp))⟩

end Sound

end Graph

end Provenance
