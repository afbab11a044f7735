import Provenance.Proofs.Flowcharts.Dot
import Provenance.Proofs.Flowcharts.Mermaid

/-!
# Flowcharts that are read back

A drawing is written in two languages of flowcharts, a line for each figure.  Of the characters that end a
label, or a line, only the double quote is taken out of labels.  So a line break in a label breaks the line of
its figure in either language; a backslash at the end of a label keeps the quote that should end it in a
Graphviz graph, unless it is kept itself; and a bar in the name of a parameter ends the label of an arrow in a
Mermaid flowchart.  Nothing else gets in the way: both languages are read back, line by line, exactly where
labels are free of this.

* `Drawing.Language.length_lines_ofGraph`: how many lines there are.
* `Drawing.read_dot_iff`, `Drawing.read_mermaid_iff`: which flowcharts are read back.
* `Session.texts_of_graph`: **how many lines there are, where labels end, and what is read back.**
* `Session.exists_broken_labels`: labels that break out, in graphs that a client builds.
-/

namespace Provenance

universe u

namespace Drawing

variable {d : Drawing} {g : Graph}

/-! ## Labels -/

theorem filterMap_label?_figures (numbered : Bool) :
    (d.figures numbered).filterMap (·.label?) = d.labels.map plain := by
  have hbox : ∀ b, (boxFigure numbered b).label? = some (plain b.label) := by
    intro b
    unfold boxFigure
    cases b.shape <;> rfl
  have harrow : ∀ a, (arrowFigure a).label? = a.label.map plain := fun a => rfl
  unfold figures labels params
  rw [List.filterMap_append, List.map_append, List.filterMap_map, List.filterMap_map, List.map_filterMap]
  simp only [Function.comp_def, hbox, harrow, List.filterMap_eq_map', List.map_map]

theorem filterMap_param?_figures (numbered : Bool) :
    (d.figures numbered).filterMap (·.param?) = d.params.map plain := by
  have hbox : ∀ b, (boxFigure numbered b).param? = none := by
    intro b
    unfold boxFigure
    cases b.shape <;> rfl
  have harrow : ∀ a, (arrowFigure a).param? = a.label.map plain := fun a => rfl
  unfold figures params
  rw [List.filterMap_append, List.filterMap_map, List.filterMap_map, List.map_filterMap]
  simp [hbox, harrow]

/-- What holds of the labels of figures holds of those of the drawing. -/
theorem forall_label?_iff {numbered : Bool} {p : String → Prop} :
    (∀ f ∈ d.figures numbered, ∀ label, f.label? = some label → p label) ↔
      ∀ label ∈ d.labels, p (plain label) := by
  rw [← List.forall_mem_map, ← filterMap_label?_figures numbered, List.forall_mem_filterMap]

theorem forall_param?_iff {numbered : Bool} {p : String → Prop} :
    (∀ f ∈ d.figures numbered, ∀ param, f.param? = some param → p param) ↔
      ∀ param ∈ d.params, p (plain param) := by
  rw [← List.forall_mem_map, ← filterMap_param?_figures numbered, List.forall_mem_filterMap]

theorem notMem_plain (label : String) : '"' ∉ (plain label).toList := Text.notMem_swap (by decide)

theorem backslashes_plain (label : String) : Text.backslashes (plain label) = Text.backslashes label :=
  Text.backslashes_swap (by decide) (by decide)

theorem mem_bar_plain_iff (param : String) : '|' ∈ (plain param).toList ↔ '|' ∈ param.toList :=
  Text.mem_swap_iff (by decide) (by decide)

/-- A label ends where its quote is written exactly if no odd number of backslashes ends it. -/
theorem quoted?_plain_iff (label rest : String) :
    Text.quoted? (plain label ++ "\"" ++ rest) = some (plain label, rest) ↔
      Even (Text.backslashes label) := by
  rw [Text.quoted?_append_eq_some_iff (notMem_plain label), backslashes_plain]

theorem breaks_plain (label : String) : Text.breaks (plain label) = Text.breaks label :=
  Text.count_swap (by decide) (by decide)

/-- The line breaks of figures are those of the labels. -/
theorem sum_breaks_figures (d : Drawing) (numbered : Bool) :
    ((d.figures numbered).map (·.breaks)).sum = (d.labels.map Text.breaks).sum := by
  have hsum : ∀ fs : List Figure,
      (fs.map (·.breaks)).sum = ((fs.filterMap (·.label?)).map Text.breaks).sum := by
    intro fs
    induction fs with
    | nil => rfl
    | cons f fs ih =>
      rw [List.map_cons, List.sum_cons, ih, List.filterMap_cons, Figure.breaks]
      cases f.label? <;> simp
  rw [hsum, filterMap_label?_figures, List.map_map]
  exact congrArg List.sum (List.map_congr_left fun label _ => breaks_plain label)

/-! ## Graphs -/

theorem isKey_of_mem_arrows {a : Arrow} (ha : a ∈ (ofGraph g).arrows) : IsKey a.source ∧ IsKey a.target := by
  obtain ⟨arrows, harrows, ha⟩ := List.mem_flatten.1 ha
  obtain ⟨k, hk, rfl⟩ := List.mem_mapIdx.1 harrows
  have hkey : ∀ {x : Address} {key : String}, keyOf? g x = some key → IsKey key := by
    intro x key hkey
    obtain ⟨j, -, rfl⟩ := Option.map_eq_some_iff.1 hkey
    exact isKey_assetKey j
  rcases List.mem_append.1 ha with ha | ha
  · obtain ⟨i, -, ha⟩ := List.mem_filterMap.1 ha
    obtain ⟨key, hsource, rfl⟩ := Option.map_eq_some_iff.1 ha
    exact ⟨hkey hsource, isKey_stepKey k⟩
  · obtain ⟨key, htarget, rfl⟩ := Option.map_eq_some_iff.1 (Option.mem_toList.1 ha)
    exact ⟨isKey_stepKey k, hkey htarget⟩

/-- What is drawn of a graph is sound. -/
theorem sound_of_mem_figures {numbered : Bool} {f : Figure} (hf : f ∈ (ofGraph g).figures numbered) :
    f.Sound numbered := by
  rcases List.mem_append.1 hf with hf | hf
  · obtain ⟨b, hb, rfl⟩ := List.mem_map.1 hf
    rcases List.mem_append.1 hb with hb | hb
    · obtain ⟨k, hk, rfl⟩ := List.mem_mapIdx.1 hb
      exact .storage (isKey_assetKey k) (notMem_plain _)
    · obtain ⟨k, hk, rfl⟩ := List.mem_mapIdx.1 hb
      refine .step (isKey_stepKey k) (notMem_plain _) ?_
      cases numbered <;> rfl
  · obtain ⟨a, ha, rfl⟩ := List.mem_map.1 hf
    obtain ⟨hsource, htarget⟩ := isKey_of_mem_arrows ha
    refine .arrow hsource htarget fun text htext => ?_
    obtain ⟨label, -, rfl⟩ := Option.map_eq_some_iff.1 htext
    exact notMem_plain label

theorem length_figures (d : Drawing) (numbered : Bool) :
    (d.figures numbered).length = d.boxes.length + d.arrows.length := by
  rw [figures, List.length_append, List.length_map, List.length_map]

/-- A figure without line breaks has a label without. -/
theorem breaks_eq_zero_iff {f : Figure} :
    f.breaks = 0 ↔ ∀ label, f.label? = some label → Text.breaks label = 0 := by
  unfold Figure.breaks
  cases f.label? <;> simp

namespace Language

variable (l : Language) (g : Graph)

/-- A flowchart of a graph has a line for each fixed line, box and arrow, and one more for each line break in
a label. -/
theorem length_lines_ofGraph : (Text.lines (l.write ((ofGraph g).figures l.numbered))).length =
    l.head.length + l.foot.length + (ofGraph g).boxes.length + (ofGraph g).arrows.length +
      ((ofGraph g).labels.map Text.breaks).sum := by
  rw [length_lines_write fun f hf => sound_of_mem_figures hf, sum_breaks_figures, length_figures,
    ← Nat.add_assoc]

/-- A flowchart of a graph is read back exactly if no label breaks a line and each line is read back. -/
theorem read?_ofGraph_iff :
    l.read? (l.write ((ofGraph g).figures l.numbered)) = some ((ofGraph g).figures l.numbered) ↔
      (∀ label ∈ (ofGraph g).labels, Text.breaks label = 0) ∧
        ∀ f ∈ (ofGraph g).figures l.numbered, l.figure? (l.line f) = some f := by
  have hbreaks : ∀ f ∈ (ofGraph g).figures l.numbered, (Text.breaks (l.line f) = 0 ↔
      ∀ label, f.label? = some label → Text.breaks label = 0) := by
    intro f hf
    rw [l.breaks_line (sound_of_mem_figures hf), breaks_eq_zero_iff]
  rw [read?_write_eq_some_iff, forall₂_and, forall₂_congr hbreaks,
    forall_label?_iff (p := fun label => Text.breaks label = 0)]
  exact and_congr_left' (forall₂_congr fun label _ => by rw [breaks_plain])

end Language

theorem length_lines_dot (g : Graph) : (Text.lines (dot (ofGraph g))).length =
    3 + (ofGraph g).boxes.length + (ofGraph g).arrows.length + ((ofGraph g).labels.map Text.breaks).sum := by
  rw [dot_eq]
  exact dotLanguage.length_lines_ofGraph g

theorem length_lines_mermaid (g : Graph) : (Text.lines (mermaid (ofGraph g))).length =
    1 + (ofGraph g).boxes.length + (ofGraph g).arrows.length + ((ofGraph g).labels.map Text.breaks).sum := by
  rw [mermaid_eq]
  exact mermaidLanguage.length_lines_ofGraph g

/-- **Which Graphviz graphs are read back**: those without labels that break a line or keep their quote. -/
theorem read_dot_iff (g : Graph) :
    dotLanguage.read? (dot (ofGraph g)) = some ((ofGraph g).figures false) ↔
      (∀ label ∈ (ofGraph g).labels, Text.breaks label = 0) ∧
        ∀ label ∈ (ofGraph g).labels, Even (Text.backslashes label) := by
  have hline : ∀ f ∈ (ofGraph g).figures false, (dotFigure? (dotLine f) = some f ↔
      ∀ label, f.label? = some label → Even (Text.backslashes label)) :=
    fun f hf => dotFigure?_dotLine (sound_of_mem_figures hf)
  rw [dot_eq]
  refine (dotLanguage.read?_ofGraph_iff g).trans (and_congr_right' ((forall₂_congr hline).trans ?_))
  rw [forall_label?_iff (p := fun label => Even (Text.backslashes label))]
  exact forall₂_congr fun label _ => by rw [backslashes_plain]

/-- **Which Mermaid flowcharts are read back**: those without labels that break a line and without bars in
the names of parameters. -/
theorem read_mermaid_iff (g : Graph) :
    mermaidLanguage.read? (mermaid (ofGraph g)) = some ((ofGraph g).figures true) ↔
      (∀ label ∈ (ofGraph g).labels, Text.breaks label = 0) ∧
        ∀ param ∈ (ofGraph g).params, '|' ∉ param.toList := by
  have hline : ∀ f ∈ (ofGraph g).figures true, (mermaidFigure? (mermaidLine f) = some f ↔
      ∀ param, f.param? = some param → '|' ∉ param.toList) :=
    fun f hf => mermaidFigure?_mermaidLine (sound_of_mem_figures hf)
  rw [mermaid_eq]
  refine (mermaidLanguage.read?_ofGraph_iff g).trans (and_congr_right' ((forall₂_congr hline).trans ?_))
  rw [forall_param?_iff (p := fun param => '|' ∉ param.toList)]
  exact forall₂_congr fun param _ => by rw [mem_bar_plain_iff]

/-! ## Names -/

/-- The parameters that arrows name are those of the steps. -/
theorem params_ofGraph (hg : g.Complete) :
    (ofGraph g).params = g.steps.flatMap fun s => s.inputs.map (·.1) := by
  have hstep : ∀ (k : ℕ) (s : Step), (wholeArrows g s k).filterMap (·.label) = s.inputs.map (·.1) := by
    intro k s
    simp [wholeArrows, List.filterMap_map]
  unfold params
  rw [arrows_ofGraph hg, List.filterMap_flatten, map_mapIdx, List.flatMap_def]
  simp only [hstep, mapIdx_of_map]

/-- The labels are the titles of the assets, the names of the tasks and those of the parameters. -/
theorem labels_ofGraph (hg : g.Complete) : (ofGraph g).labels = g.assets.map (·.title) ++
    g.steps.map (·.task.name) ++ g.steps.flatMap fun s => s.inputs.map (·.1) := by
  unfold labels
  rw [params_ofGraph hg, boxes_ofGraph, List.map_append, map_mapIdx, map_mapIdx]
  simp only [assetBox, stepBox, mapIdx_of_map]

end Drawing

namespace Session

variable {α : Type u} {s : Session α} {terminals : List Asset}

/-- **What becomes of labels in the two flowcharts of a graph.**

* The labels are what a client names: the titles of the data, the names of the tasks and of the parameters.
* There are as many lines as fixed lines, boxes and arrows, and one more for each line break in a label.
* A label in quotes ends where its quote is written exactly if no odd number of backslashes ends it.
* The label of an arrow has a bar in it exactly if the name of the parameter has one.
* The Graphviz graph is read back exactly if no label has a line break and each ends where it should.
* The Mermaid flowchart is read back exactly if no label has a line break and no parameter has a bar. -/
theorem texts_of_graph (hs : s.Reachable) (hterminals : ∀ a ∈ terminals, s.Offers (.asset a))
    {g : Graph} (hg : s.graph terminals = .ok g) {d : Drawing} (hd : d = Drawing.ofGraph g) :
    d.labels = g.assets.map (·.title) ++ g.steps.map (·.task.name) ++ d.params ∧
    d.params = (g.steps.flatMap fun t => t.inputs.map (·.1)) ∧
    (Text.lines d.dot).length = 3 + d.boxes.length + d.arrows.length + (d.labels.map Text.breaks).sum ∧
    (Text.lines d.mermaid).length = 1 + d.boxes.length + d.arrows.length + (d.labels.map Text.breaks).sum ∧
    (∀ label rest : String, Text.quoted? (Drawing.plain label ++ "\"" ++ rest) =
      some (Drawing.plain label, rest) ↔ Even (Text.backslashes label)) ∧
    (∀ param : String, '|' ∈ (Drawing.plain param).toList ↔ '|' ∈ param.toList) ∧
    (Drawing.dotLanguage.read? d.dot = some (d.figures false) ↔
      (∀ label ∈ d.labels, Text.breaks label = 0) ∧ ∀ label ∈ d.labels, Even (Text.backslashes label)) ∧
    (Drawing.mermaidLanguage.read? d.mermaid = some (d.figures true) ↔
      (∀ label ∈ d.labels, Text.breaks label = 0) ∧ ∀ param ∈ d.params, '|' ∉ param.toList) := by
  subst hd
  have hcomplete := complete_of_graph hs hterminals hg
  have hparams := Drawing.params_ofGraph hcomplete
  refine ⟨?_, hparams, Drawing.length_lines_dot g, Drawing.length_lines_mermaid g, Drawing.quoted?_plain_iff,
    Drawing.mem_bar_plain_iff, Drawing.read_dot_iff g, Drawing.read_mermaid_iff g⟩
  rw [hparams]
  exact Drawing.labels_ofGraph hcomplete

namespace Flow

/-- The data that comes from outside. -/
def raw : Asset := ⟨⟨"raw", "lake"⟩, none, none, none, 0⟩

/-- What is made of it. -/
def clean : Asset := ⟨⟨"clean", "lake"⟩, none, none, none, 1⟩

/-- A task of one parameter. -/
def task (name param : String) : Task := .plain name [param] fun _ => ⟨.ok .empty, false, []⟩

/-- The step that makes it. -/
def step (t : Task) (param : String) : Step := ⟨1, t, [(param, raw)], clean, false⟩

/-- The session after the step. -/
def session (t : Task) (param : String) : Session Unit :=
  .ofSteps 2 [step t param] [("raw", raw), ("clean", clean.producedBy 1)]

/-- The graph behind the clean data. -/
def graph (t : Task) (param : String) : Graph :=
  ⟨[clean.address], [raw, clean], [step t param], (step t param).links⟩

variable {t : Task} {param : String}

theorem reachable (ht : t.params = [param]) : (session t param).Reachable := by
  have hdeclared : (ofSteps 2 [] [("raw", raw), ("clean", clean)]).Reachable :=
    .declare "clean" "lake" "clean" (.declare "raw" "lake" "raw" .start)
  have hput : (ofSteps 2 [] [("raw", raw), ("clean", clean)]).put ⟨t, [(param, raw)]⟩ clean =
      .ok (clean.producedBy 1, ofSteps 2 [step t param] [("raw", raw), ("clean", clean)]) := by
    cbv
  exact .put "clean" hdeclared (.single (.of_item? "raw" rfl) (transform_of_params ht))
    (.of_item? "clean" rfl) hput

theorem graph_eq : (session t param).graph [clean.producedBy 1] = .ok (graph t param) := by
  cbv

theorem params_eq : (Drawing.ofGraph (graph t param)).params = [param] := by
  cbv

theorem labels_eq : (Drawing.ofGraph (graph t param)).labels = ["raw", "clean", t.name, param] := by
  cbv

theorem offers : ∀ a ∈ [clean.producedBy 1], (session t param).Offers (.asset a) := by
  intro a ha
  obtain rfl := List.mem_singleton.1 ha
  exact .of_item? "clean" rfl

end Flow

/-- Both flowcharts of a step with plain names are read back. -/
theorem texts_of_graph_plain :
    (Flow.session (Flow.task "copy" "x") "x").graph [Flow.clean.producedBy 1] =
      .ok (Flow.graph (Flow.task "copy" "x") "x") ∧
    (∃ d, d = Drawing.ofGraph (Flow.graph (Flow.task "copy" "x") "x") ∧
      Drawing.dotLanguage.read? d.dot = some [.storage "n0" "raw", .storage "n1" "clean",
        .step "s0" none "copy", .arrow "n0" "s0" (some "x"), .arrow "s0" "n1" none] ∧
      Drawing.mermaidLanguage.read? d.mermaid = some [.storage "n0" "raw", .storage "n1" "clean",
        .step "s0" (some 0) "copy", .arrow "n0" "s0" (some "x"), .arrow "s0" "n1" none]) := by
  obtain ⟨-, -, -, -, -, -, hdot, hmermaid⟩ :=
    texts_of_graph (Flow.reachable (t := Flow.task "copy" "x") rfl) Flow.offers Flow.graph_eq rfl
  rw [Flow.labels_eq] at hdot
  rw [Flow.labels_eq, Flow.params_eq] at hmermaid
  refine ⟨Flow.graph_eq, _, rfl, (hdot.2 ?_).trans ?_, (hmermaid.2 ?_).trans ?_⟩
  · decide
  · rfl
  · decide
  · rfl

/-- Labels that break out: the name of a task that ends in a backslash, one with a line break, and the name of
a parameter with a bar. -/
theorem exists_broken_labels :
    (∀ name param : String, (Flow.session (Flow.task name param) param).Reachable ∧
      (Flow.session (Flow.task name param) param).graph [Flow.clean.producedBy 1] =
        .ok (Flow.graph (Flow.task name param) param)) ∧
    (∃ d, d = Drawing.ofGraph (Flow.graph (Flow.task "copy\\" "x") "x") ∧ "copy\\" ∈ d.labels ∧
      (∀ rest, Text.quoted? (Drawing.plain "copy\\" ++ "\"" ++ rest) ≠ some (Drawing.plain "copy\\", rest)) ∧
      Drawing.dotLanguage.read? d.dot ≠ some (d.figures false)) ∧
    (∃ d, d = Drawing.ofGraph (Flow.graph (Flow.task "copy\n" "x") "x") ∧
      (Text.lines d.dot).length ≠ 3 + d.boxes.length + d.arrows.length ∧
      (Text.lines d.mermaid).length ≠ 1 + d.boxes.length + d.arrows.length) ∧
    (∃ d, d = Drawing.ofGraph (Flow.graph (Flow.task "copy" "a|b") "a|b") ∧
      Drawing.mermaidLanguage.read? d.mermaid ≠ some (d.figures true)) := by
  have hodd : ¬ Even (Text.backslashes "copy\\") := by
    decide
  have hbroken : (["raw", "clean", "copy\n", "x"].map Text.breaks).sum = 1 := rfl
  have hname : "copy\\" ∈ (Drawing.ofGraph (Flow.graph (Flow.task "copy\\" "x") "x")).labels := by
    rw [Flow.labels_eq]
    decide
  have hlabels : (Drawing.ofGraph (Flow.graph (Flow.task "copy\n" "x") "x")).labels =
      ["raw", "clean", "copy\n", "x"] := Flow.labels_eq
  refine ⟨fun name param => ⟨Flow.reachable rfl, Flow.graph_eq⟩, ⟨_, rfl, hname, fun rest hread => hodd ?_,
    fun hread => hodd ?_⟩, ⟨_, rfl, ?_, ?_⟩, ⟨_, rfl, fun hread => ?_⟩⟩
  · exact (Drawing.quoted?_plain_iff _ rest).1 hread
  · exact ((Drawing.read_dot_iff _).1 hread).2 _ hname
  · rw [Drawing.length_lines_dot, hlabels, hbroken]
    omega
  · rw [Drawing.length_lines_mermaid, hlabels, hbroken]
    omega
  · have hbar := ((Drawing.read_mermaid_iff _).1 hread).2
    rw [Flow.params_eq] at hbar
    exact hbar _ (List.mem_singleton_self _) (by decide)

end Session

end Provenance
