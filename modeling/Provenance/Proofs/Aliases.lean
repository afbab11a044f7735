import Provenance.Proofs.Alive

/-!
# The order of the terminals

A client may list the terminals of a graph in any order.  The order shows in the graph: in the list of
terminals, and in the order of those terminals that no step touches.  Nothing else depends on it
(`Graph.Agrees`), as long as the order does not decide who wins an address.

* `Session.graph_perm`: if all disputes among handles to one address end well, then all orders of the
  terminals give graphs that agree, or all give a cycle.  If a dispute that is sure to come up cannot end
  well, then all orders give a conflict.
* In other cases the order matters.  A handle may be met only on the way to a step that loses later, and
  the step that this handle names then stands although nothing leads to it (`Session.order_matters`).
-/

namespace Provenance

universe u

variable {c : Catalog} {alive alive' : List StepId} {terminals terminals' : List Asset} {v w : Survey}

/-! ## 1.  Surveys that settle on the same producers -/

namespace Survey

theorem reads_congr (h : ∀ x, w.producers.lookup x = v.producers.lookup x) : w.Reads = v.Reads := by
  funext a b
  simp only [Reads, h]

theorem behind_congr (h : ∀ x, w.producers.lookup x = v.producers.lookup x)
    (hmem : ∀ t, t ∈ terminals' ↔ t ∈ terminals) {a : Address} :
    w.Behind terminals' a ↔ v.Behind terminals a := by
  unfold Behind
  rw [reads_congr h]
  exact exists_congr fun t => and_congr_left fun _ => hmem t

/-- Surveys that settle on the same producers list the same ones. -/
theorem Settled.perm (hv : v.Settled c) (hw : w.Settled c)
    (h : ∀ x, w.producers.lookup x = v.producers.lookup x) : w.producers.Perm v.producers := by
  refine (List.perm_ext_iff_of_nodup (.of_map _ hw.keys) (.of_map _ hv.keys)).2 ?_
  rintro ⟨x, s⟩
  rw [← hw.lookup_iff, ← hv.lookup_iff, h]

/-- **Where all disputes end well, surveys settle on the same producers in whatever order the terminals
are listed.** -/
theorem Decided.lookup_eq (hd : Decided (c.producer? alive) terminals)
    (hnames : c.producer? alive' = c.producer? alive) (hmem : ∀ t, t ∈ terminals' ↔ t ∈ terminals)
    (hv : ofTerminals c alive terminals = .ok v) (hw : ofTerminals c alive' terminals' = .ok w)
    (x : Address) : w.producers.lookup x = v.producers.lookup x := by
  obtain ⟨u, hu, rfl⟩ := ofTerminals_eq_ok_iff.1 hv
  obtain ⟨u', hu', rfl⟩ := ofTerminals_eq_ok_iff.1 hw
  have hback : ∀ t, t ∈ terminals ↔ t ∈ terminals' := fun t => (hmem t).symm
  have hd' : Decided (c.producer? alive') terminals' := hnames ▸ hd.of_mem_iff hback
  have hsure : ∀ a, Sure (c.producer? alive) terminals' a ↔ Sure (c.producer? alive) terminals a :=
    fun a => ⟨fun ha => ha.of_mem_iff hmem, fun ha => ha.of_mem_iff hback⟩
  ext t
  rw [hd'.lookup_prune_iff hu', hd.lookup_prune_iff hu, hnames, newest_congr hmem]
  simp only [hsure]

end Survey

/-! ## 2.  Graphs that agree -/

namespace Graph

/-- Two graphs show the same, but for the order of their terminals, and of terminals that no step
touches. -/
structure Agrees (g g' : Graph) : Prop where
  steps : g'.steps = g.steps
  producer : ∀ a, g'.producer? a = g.producer? a
  links : ∀ l, l ∈ g'.links ↔ l ∈ g.links
  terminals : g'.terminals.Perm g.terminals
  assets : ∃ touched rest rest', g.assets.map (·.address) = touched ++ rest ∧
    g'.assets.map (·.address) = touched ++ rest' ∧ rest'.Perm rest ∧ ∀ a ∈ rest, g.isSource a = true

variable {home : ℕ → Address} {g g' : Graph}

/-- The assets of a graph: what its steps touch, and then the terminals that they do not touch. -/
theorem Shows.addresses (hg : g.Shows v terminals) (hv : ∀ e ∈ v.handles, e.2.address = e.1) :
    g.assets.map (·.address) = (g.steps.flatMap Step.touched).eraseDups ++
      ((terminals.map (·.address)).removeAll (g.steps.flatMap Step.touched)).eraseDups := by
  rw [hg.assets, map_address_foldl_gather hv]
  simp [List.eraseDups_append]

/-- What no step touches is a source. -/
theorem isSource_of_not_touched {a : Address} (ha : a ∉ g.steps.flatMap Step.touched) :
    g.isSource a = true := by
  unfold isSource producer?
  rw [Option.isNone_iff_eq_none, List.find?_eq_none]
  intro s hs hout
  refine ha (List.mem_flatMap.2 ⟨s, hs, List.mem_append_right _ ?_⟩)
  rw [List.mem_singleton]
  exact Eq.symm (by simpa using hout)

/-- Graphs that show surveys with the same producers agree. -/
theorem Shows.agrees (hg : g.Shows v terminals) (hg' : g'.Shows w terminals') (hv : v.Settled c)
    (hw : w.Settled c) (haddress : ∀ e ∈ v.handles, e.2.address = e.1)
    (haddress' : ∀ e ∈ w.handles, e.2.address = e.1)
    (hlookup : ∀ x, w.producers.lookup x = v.producers.lookup x)
    (hperm : terminals'.Perm terminals) : g.Agrees g' := by
  have hsteps : g'.steps = g.steps := by
    rw [Order.eq_filterMap_of_ofSurvey hw hg'.steps, Order.eq_filterMap_of_ofSurvey hv hg.steps,
      Order.ids_of_perm hv.consistent hv.keys (hv.perm hw hlookup)]
  refine ⟨hsteps, fun a => ?_, fun l => ?_, ?_, ?_⟩
  · unfold producer?
    rw [hsteps]
  · rw [hg'.links, hg.links, hsteps]
  · rw [hg'.terminals, hg.terminals]
    exact hperm.map _
  · refine ⟨_, _, _, hg.addresses haddress, hsteps ▸ hg'.addresses haddress', ?_, fun a ha => ?_⟩
    · refine (List.perm_ext_iff_of_nodup nodup_eraseDups nodup_eraseDups).2 fun a => ?_
      rw [List.mem_eraseDups, List.mem_eraseDups]
      exact ((hperm.map _).filter _).mem_iff
    · rw [List.mem_eraseDups] at ha
      refine isSource_of_not_touched ?_
      simpa using (List.mem_filter.1 ha).2

/-- **Surveys with the same producers give graphs that agree, or both give a cycle.** -/
theorem agrees_of_lookup (hc : c.Sound home) (hknown : ∀ t ∈ terminals, c.Knows home t)
    (hv : Survey.ofTerminals c alive terminals = .ok v)
    (hw : Survey.ofTerminals c alive' terminals' = .ok w)
    (hlookup : ∀ x, w.producers.lookup x = v.producers.lookup x)
    (hperm : terminals'.Perm terminals) :
    (∃ g g', ofTerminals c alive terminals = .ok g ∧ ofTerminals c alive' terminals' = .ok g' ∧
      g.Agrees g') ∨
    ∃ path path', ofTerminals c alive terminals = .error (.cycle path) ∧
      ofTerminals c alive' terminals' = .error (.cycle path') := by
  have hknown' : ∀ t ∈ terminals', c.Knows home t := fun t ht => hknown t (hperm.mem_iff.1 ht)
  have haddress : ∀ {alive terminals v}, (∀ t ∈ terminals, c.Knows home t) →
      Survey.ofTerminals c alive terminals = .ok v → ∀ e ∈ v.handles, e.2.address = e.1 := by
    intro alive terminals v hknown hv e he
    obtain ⟨u, hu, rfl⟩ := Survey.ofTerminals_eq_ok_iff.1 hv
    exact ((Survey.fits_of_follow hc hknown hu).handles e he).1
  have hcycles : (∃ walk, Walk.cycleFrom (Survey.sources w.producers) [] []
        (terminals'.map (·.address)) = .error walk) ↔
      ∃ walk, Walk.cycleFrom (Survey.sources v.producers) [] []
        (terminals.map (·.address)) = .error walk := by
    rw [Survey.exists_cycleFrom_iff, Survey.exists_cycleFrom_iff, Survey.reads_congr hlookup]
    simp only [Survey.behind_congr hlookup fun t => hperm.mem_iff]
  cases hwalk : Walk.cycleFrom (Survey.sources v.producers) [] [] (terminals.map (·.address)) with
  | error walk =>
    obtain ⟨walk', hwalk'⟩ := hcycles.2 ⟨walk, hwalk⟩
    exact .inr ⟨_, _, ofTerminals_of_survey hv hwalk, ofTerminals_of_survey hw hwalk'⟩
  | ok safe =>
    cases hwalk' : Walk.cycleFrom (Survey.sources w.producers) [] [] (terminals'.map (·.address)) with
    | error walk' =>
      obtain ⟨walk, hfound⟩ := hcycles.1 ⟨walk', hwalk'⟩
      exact absurd (hwalk.symm.trans hfound) (by simp)
    | ok safe' =>
      obtain ⟨g, hg, hshows⟩ := ofTerminals_eq_ok hc hknown hv hwalk
      obtain ⟨g', hg', hshows'⟩ := ofTerminals_eq_ok hc hknown' hw hwalk'
      exact .inl ⟨g, g', hg, hg', hshows.agrees hshows' (Survey.settled_of_ofTerminals hv)
        (Survey.settled_of_ofTerminals hw) (haddress hknown hv) (haddress hknown' hw) hlookup hperm⟩

theorem ofTerminals_of_follow_error {fault : Fault}
    (h : Survey.follow c alive .empty terminals = .error fault) :
    ofTerminals c alive terminals = .error fault := by
  unfold ofTerminals Survey.ofTerminals
  rw [h]
  rfl

end Graph

/-! ## 3.  Sessions -/

namespace Session

variable {α : Type u} {s : Session α}

/-- The step that a handle names while terminals are in use. -/
def named (s : Session α) (terminals : List Asset) : Asset → Option Step :=
  s.catalog.producer? (s.alive (terminals.filterMap (·.lineage)))

section

variable (hs : s.Reachable) (hterminals : ∀ a ∈ terminals, s.Offers (.asset a))

include hs hterminals

/-- **The order of the terminals does not matter where it does not decide who wins an address.**

* If all disputes end well, then in both orders the graph has the newest contenders for what is sure to
  come up as producers, and the graphs agree; or in both orders there is a cycle.
* If a dispute that is sure to come up cannot end well, then a conflict is reported in both orders. -/
theorem graph_perm (hperm : terminals'.Perm terminals) :
    (Survey.Decided (s.named terminals) terminals →
      (∃ g g', s.graph terminals = .ok g ∧ s.graph terminals' = .ok g' ∧ g.Agrees g' ∧
        ∀ x n, g.producer? x = some n ↔
          (∃ a, Survey.Sure (s.named terminals) terminals a ∧ a.address = x) ∧
            Survey.Newest (s.named terminals) terminals x n) ∨
      ∃ path path', s.graph terminals = .error (.cycle path) ∧
        s.graph terminals' = .error (.cycle path')) ∧
    (Survey.Disputed (s.named terminals) terminals →
      ∃ address task address' task', s.graph terminals = .error (.overwrite address task) ∧
        s.graph terminals' = .error (.overwrite address' task')) := by
  obtain ⟨home, hsound⟩ := hs.sound
  have hknown : ∀ t ∈ terminals, s.catalog.Knows home t := fun t ht => (hterminals t ht).known hsound
  have hmem : ∀ t, t ∈ terminals' ↔ t ∈ terminals := fun t => hperm.mem_iff
  have hback : ∀ t, t ∈ terminals ↔ t ∈ terminals' := fun t => hperm.mem_iff.symm
  have hnamed : s.named terminals' = s.named terminals := by
    refine Catalog.producer?_congr fun x => hs.listed.alive_congr fun r => ?_
    exact ((hperm.filterMap _).append_right _).mem_iff
  constructor
  · intro hd
    have hd' := hd.of_mem_iff hback
    rw [← hnamed] at hd'
    obtain ⟨u, hu⟩ := hd.exists_follow
    obtain ⟨u', hu'⟩ := hd'.exists_follow
    have hv := Survey.ofTerminals_eq_ok_iff.2 ⟨u, hu, rfl⟩
    have hw := Survey.ofTerminals_eq_ok_iff.2 ⟨u', hu', rfl⟩
    refine (Graph.agrees_of_lookup hsound.catalog hknown hv hw (hd.lookup_eq hnamed hmem hv hw)
      hperm).imp_left ?_
    rintro ⟨g, g', hg, hg', hagrees⟩
    refine ⟨g, g', hg, hg', hagrees, fun x n => ?_⟩
    rw [Graph.producer?_eq_some_iff_lookup hsound.catalog hknown hv hg]
    exact hd.lookup_prune_iff hu
  · intro hd
    have hd' := hd.of_mem_iff hback
    rw [← hnamed] at hd'
    obtain ⟨address, task, hfault⟩ := hd.not_follow
    obtain ⟨address', task', hfault'⟩ := hd'.not_follow
    exact ⟨address, task, address', task', Graph.ofTerminals_of_follow_error hfault,
      Graph.ofTerminals_of_follow_error hfault'⟩

end

/-! ## 4.  A session with aliases -/

namespace Aliases

open Late (raw)

/-- Data on the way from the raw data, declared twice. -/
def staged (declaration : ℕ) : Asset := ⟨⟨"staged", "lake"⟩, none, none, none, declaration⟩

/-- Clean data, declared twice. -/
def clean (declaration : ℕ) : Asset := ⟨⟨"clean", "lake"⟩, none, none, none, declaration⟩

/-- What is made from staged data. -/
def report : Asset := ⟨⟨"report", "lake"⟩, none, none, none, 5⟩

/-- The step into the first handle to staged data. -/
def stage (t : Task) : Step := ⟨1, t, [("x", raw)], staged 1, false⟩

/-- The step into the second handle to staged data, which replaces. -/
def restage (t : Task) : Step := ⟨2, t, [("x", raw)], staged 2, true⟩

/-- The step into the first handle to clean data, from the second one to staged data. -/
def tidy (t : Task) : Step := ⟨3, t, [("x", (staged 2).producedBy 2)], clean 3, false⟩

/-- The step into the second handle to clean data, which replaces and does not need staged data. -/
def retidy (t : Task) : Step := ⟨4, t, [("x", raw)], clean 4, true⟩

/-- The step into the report, from the first handle to staged data. -/
def tell (t : Task) : Step := ⟨5, t, [("x", (staged 1).producedBy 1)], report, false⟩

/-- The session after some of the steps, whose handles are kept under further names. -/
def after (steps : List Step) (handles : List (String × Asset)) : Session Unit :=
  .ofSteps 6 steps ([("raw", raw), ("staged", staged 1), ("restaged", staged 2), ("clean", clean 3),
    ("recleaned", clean 4), ("report", report)] ++ handles)

/-- The handle that comes from the first step into clean data. -/
def tidied : Asset := (clean 3).producedBy 3

/-- The handle that comes from the second step into clean data. -/
def retidied : Asset := (clean 4).producedBy 4

/-- The handle that comes from the step into the report. -/
def told : Asset := report.producedBy 5

/-- The session after all steps. -/
def session (t : Task) : Session Unit :=
  after [tell t, retidy t, tidy t, restage t, stage t]
    [("1", (staged 1).producedBy 1), ("2", (staged 2).producedBy 2), ("3", tidied), ("4", retidied),
      ("5", told)]

theorem reachable {t : Task} (ht : t.params = ["x"]) : (session t).Reachable := by
  have hdraft : ∀ a : Asset, a.transform t = .ok ⟨t, [("x", a)]⟩ := fun a => transform_of_params ht
  have hdeclared : (after [] []).Reachable :=
    .declare "report" "lake" "report" (.declare "clean" "lake" "recleaned"
      (.declare "clean" "lake" "clean" (.declare "staged" "lake" "restaged"
        (.declare "staged" "lake" "staged" (.declare "raw" "lake" "raw" .start)))))
  have hstage : (after [] []).put ⟨t, [("x", raw)]⟩ (staged 1) =
      .ok ((staged 1).producedBy 1, after [stage t] []) := by
    cbv
  have hstaged : (after [stage t] [("1", (staged 1).producedBy 1)]).Reachable :=
    .put "1" hdeclared (.single (.of_item? "raw" rfl) (hdraft _)) (.of_item? "staged" rfl) hstage
  have hrestaged : (after [restage t, stage t]
      [("1", (staged 1).producedBy 1), ("2", (staged 2).producedBy 2)]).Reachable :=
    .replace "2" hstaged (.single (.of_item? "raw" rfl) (hdraft _)) (.of_item? "restaged" rfl)
  have htidy : (after [restage t, stage t]
      [("1", (staged 1).producedBy 1), ("2", (staged 2).producedBy 2)]).put
      ⟨t, [("x", (staged 2).producedBy 2)]⟩ (clean 3) = .ok (tidied, after [tidy t, restage t, stage t]
        [("1", (staged 1).producedBy 1), ("2", (staged 2).producedBy 2)]) := by
    cbv
  have htidied : (after [tidy t, restage t, stage t]
      [("1", (staged 1).producedBy 1), ("2", (staged 2).producedBy 2), ("3", tidied)]).Reachable :=
    .put "3" hrestaged (.single (.of_item? "2" rfl) (hdraft _)) (.of_item? "clean" rfl) htidy
  have hretidied : (after [retidy t, tidy t, restage t, stage t]
      [("1", (staged 1).producedBy 1), ("2", (staged 2).producedBy 2), ("3", tidied),
        ("4", retidied)]).Reachable :=
    .replace "4" htidied (.single (.of_item? "raw" rfl) (hdraft _)) (.of_item? "recleaned" rfl)
  have htell : (after [retidy t, tidy t, restage t, stage t]
      [("1", (staged 1).producedBy 1), ("2", (staged 2).producedBy 2), ("3", tidied),
        ("4", retidied)]).put ⟨t, [("x", (staged 1).producedBy 1)]⟩ report =
      .ok (told, after [tell t, retidy t, tidy t, restage t, stage t]
        [("1", (staged 1).producedBy 1), ("2", (staged 2).producedBy 2), ("3", tidied),
          ("4", retidied)]) := by
    cbv
  exact .put "5" hretidied (.single (.of_item? "1" rfl) (hdraft _)) (.of_item? "report" rfl) htell

theorem offers (t : Task) : ∀ a ∈ [tidied, retidied, told], (session t).Offers (.asset a) := by
  simp only [List.forall_mem_cons]
  exact ⟨.of_item? "3" rfl, .of_item? "4" rfl, .of_item? "5" rfl, by simp⟩

/-! ### The two handles to clean data -/

section

variable (t : Task)

theorem named_tidied : (session t).named [tidied, retidied] tidied = some (tidy t) := by
  cbv

theorem named_retidied : (session t).named [tidied, retidied] retidied = some (retidy t) := by
  cbv

theorem named_staged :
    (session t).named [tidied, retidied] ((staged 2).producedBy 2) = some (restage t) := by
  cbv

theorem named_raw : (session t).named [tidied, retidied] raw = none := by
  cbv

/-- What the two handles to clean data lead to. -/
theorem met_cases {a : Asset} (h : Survey.Met ((session t).named [tidied, retidied]) [tidied, retidied] a) :
    a ∈ [tidied, retidied, (staged 2).producedBy 2, raw] := by
  refine h.mem_of_closed (by simp) ?_
  simp only [List.forall_mem_cons, named_tidied, named_retidied, named_staged, named_raw,
    Option.some.injEq]
  refine ⟨?_, ?_, ?_, ?_, by simp⟩
  · rintro s rfl i hi
    obtain rfl := List.mem_singleton.1 hi
    simp
  · rintro s rfl i hi
    obtain rfl := List.mem_singleton.1 hi
    simp
  · rintro s rfl i hi
    obtain rfl := List.mem_singleton.1 hi
    simp
  · simp

/-- The steps that contend for an address behind the two handles. -/
theorem contends_cases {x : Address} {s : Step}
    (h : Survey.Contends ((session t).named [tidied, retidied]) [tidied, retidied] x s) :
    s = tidy t ∧ x = tidied.address ∨ s = retidy t ∧ x = tidied.address ∨
      s = restage t ∧ x = (staged 2).address := by
  obtain ⟨a, ha, rfl, hs⟩ := h
  have hmem := met_cases t ha
  simp only [List.mem_cons, List.not_mem_nil, or_false] at hmem
  rcases hmem with rfl | rfl | rfl | rfl
  · rw [named_tidied] at hs
    exact .inl ⟨(Option.some.inj hs).symm, rfl⟩
  · rw [named_retidied] at hs
    exact .inr (.inl ⟨(Option.some.inj hs).symm, rfl⟩)
  · rw [named_staged] at hs
    exact .inr (.inr ⟨(Option.some.inj hs).symm, rfl⟩)
  · rw [named_raw] at hs
    exact absurd hs (by simp)

/-- The second step into clean data replaces the first one, and all other handles agree. -/
theorem decided : Survey.Decided ((session t).named [tidied, retidied]) [tidied, retidied] where
  replaces := by
    intro x s later hs hlater hlt
    rcases contends_cases t hlater with ⟨rfl, rfl⟩ | ⟨rfl, -⟩ | ⟨rfl, -⟩
    · rcases contends_cases t hs with ⟨rfl, -⟩ | ⟨rfl, -⟩ | ⟨rfl, hx⟩
      · exact absurd hlt (Nat.lt_irrefl 3)
      · exact absurd (show 4 < 3 from hlt) (by decide)
      · exact absurd hx (by decide)
    · rfl
    · rfl
  named := by
    intro a n ha hn
    rcases contends_cases t hn.contends with ⟨rfl, hx⟩ | ⟨rfl, hx⟩ | ⟨rfl, hx⟩
    · have hlater := hn.le (retidy t) ⟨retidied, .terminal (by simp), hx.symm, named_retidied t⟩
      exact absurd (show 4 ≤ 3 from hlater) (by decide)
    · exact ⟨retidied, .terminal (by simp), hx.symm, named_retidied t⟩
    · have hmem := met_cases t ha.met
      simp only [List.mem_cons, List.not_mem_nil, or_false] at hmem
      rcases hmem with rfl | rfl | rfl | rfl
      · exact absurd hx (by decide)
      · exact absurd hx (by decide)
      · exact ⟨_, ha, rfl, named_staged t⟩
      · exact absurd hx (by decide)

end

/-- The numbers of the steps of a graph tell that there is one. -/
theorem exists_graph {r : Except Fault Graph} {ids : List StepId}
    (h : r.map (fun g => g.steps.map (·.id)) = .ok ids) : ∃ g, r = .ok g ∧ g.steps.map (·.id) = ids := by
  cases r with
  | error fault => exact absurd h (by simp [Except.map])
  | ok g => exact ⟨g, rfl, Except.ok.inj h⟩

end Aliases

/-- In whatever order the two handles to clean data are listed, the step that replaces stands alone. -/
theorem graph_perm_aliases :
    let s := Aliases.session Late.copy
    ∃ g g', s.graph [Aliases.tidied, Aliases.retidied] = .ok g ∧
      s.graph [Aliases.retidied, Aliases.tidied] = .ok g' ∧ g.steps.map (·.id) = [4] ∧ g.Agrees g' := by
  have hoffers : ∀ t, ∀ a ∈ [Aliases.tidied, Aliases.retidied],
      (Aliases.session t).Offers (.asset a) := fun t a ha =>
    Aliases.offers t a (by simp only [List.mem_cons] at ha ⊢; tauto)
  have hsteps : ∀ t, ∃ g, (Aliases.session t).graph [Aliases.tidied, Aliases.retidied] = .ok g ∧
      g.steps.map (·.id) = [4] := fun t => Aliases.exists_graph (by cbv)
  obtain ⟨g, hg, hids⟩ := hsteps Late.copy
  obtain ⟨hdecided, -⟩ :=
    graph_perm (Aliases.reachable (t := Late.copy) rfl) (hoffers _) (.swap _ _ _)
  rcases hdecided (Aliases.decided _) with ⟨h, h', hh, hh', hagrees, -⟩ | ⟨path, -, hpath, -⟩
  · obtain rfl := Except.ok.inj (hg.symm.trans hh)
    exact ⟨g, h', hg, hh', hids, hagrees⟩
  · exact absurd (hg.symm.trans hpath) (by simp)

/-- **In general the order of the terminals matters.**  With the report as a third terminal, the staged
data comes up in any case, and is contested by a handle that only the step leads to that loses.  If that
step is met first, the report is made from what the other one has staged. -/
theorem order_matters :
    let s := Aliases.session Late.copy
    s.Reachable ∧ (∀ a ∈ [Aliases.tidied, Aliases.retidied, Aliases.told], s.Offers (.asset a)) ∧
      [Aliases.retidied, Aliases.tidied, Aliases.told].Perm
        [Aliases.tidied, Aliases.retidied, Aliases.told] ∧
      ∃ g g', s.graph [Aliases.tidied, Aliases.retidied, Aliases.told] = .ok g ∧
        s.graph [Aliases.retidied, Aliases.tidied, Aliases.told] = .ok g' ∧
        g.steps.map (·.id) = [2, 4, 5] ∧ g'.steps.map (·.id) = [1, 4, 5] := by
  have hfirst : ∀ t, ∃ g, (Aliases.session t).graph [Aliases.tidied, Aliases.retidied, Aliases.told] =
      .ok g ∧ g.steps.map (·.id) = [2, 4, 5] := fun t => Aliases.exists_graph (by cbv)
  have hsecond : ∀ t, ∃ g, (Aliases.session t).graph [Aliases.retidied, Aliases.tidied, Aliases.told] =
      .ok g ∧ g.steps.map (·.id) = [1, 4, 5] := fun t => Aliases.exists_graph (by cbv)
  obtain ⟨g, hg, hids⟩ := hfirst Late.copy
  obtain ⟨g', hg', hids'⟩ := hsecond Late.copy
  exact ⟨Aliases.reachable rfl, Aliases.offers _, .swap _ _ _, g, g', hg, hg', hids, hids'⟩

end Session

end Provenance
