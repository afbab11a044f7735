import Provenance.Proofs.Flowcharts.Language

/-!
# Graphs of Graphviz

The label of a figure stands in quotes.  A quote ends it, unless a backslash keeps that quote; so a label that
ends in a backslash goes on behind its end, unless the backslash is kept itself.

* `Drawing.dotFigure?_dotLine`: **which lines are read back.**
* `Drawing.dot_eq`: a drawing is written in this language.
-/

namespace Provenance.Drawing

variable {key source target label : String} {words : List String}

/-! ## Writing -/

/-- The line of a figure in a Graphviz graph, in the parts that it is read in. -/
def dotLine : Figure → String
  | .storage key label => indented [key, "[label="] ++ "\"" ++ (label ++ "\"" ++ ", shape=cylinder];")
  | .step key _ label => indented [key, "[label="] ++ "\"" ++ (label ++ "\"" ++ ", shape=box];")
  | .arrow source target (some label) =>
    indented [source, "->", target, "[label="] ++ "\"" ++ (label ++ "\"" ++ "];")
  | .arrow source target none => indented [source, "->", target] ++ ";" ++ ""

theorem breaks_labelled (h : ∀ w ∈ words, IsWord w) {label after : String} (hafter : Text.breaks after = 0) :
    Text.breaks (indented words ++ "\"" ++ (label ++ "\"" ++ after)) = Text.breaks label := by
  have hquote : Text.breaks "\"" = 0 := rfl
  simp only [Text.breaks_append, breaks_indented h, hquote, hafter, Nat.zero_add, Nat.add_zero]

/-- A line of a Graphviz graph breaks where its label does. -/
theorem breaks_dotLine {f : Figure} {numbered : Bool} (h : f.Sound numbered) :
    Text.breaks (dotLine f) = f.breaks := by
  cases h with
  | storage hkey hlabel => exact breaks_labelled (by simp [IsWord, hkey]) rfl
  | step hkey hlabel hposition => exact breaks_labelled (by simp [IsWord, hkey]) rfl
  | @arrow source target label hsource htarget hlabel =>
    have hwords : ∀ w ∈ [source, "->", target, "[label="], IsWord w := by simp [IsWord, hsource, htarget]
    cases label with
    | some label => exact breaks_labelled hwords rfl
    | none =>
      have hend : Text.breaks ";" = 0 := rfl
      rw [dotLine, String.append_empty, Text.breaks_append, breaks_indented, hend]
      · rfl
      · exact fun w hw => hwords w (List.mem_append_left ["[label="] hw)

/-! ## Reading -/

/-- The figure with some words in front of its label and a text behind it. -/
def dotLabelled? (words : List String) (label after : String) : Option Figure :=
  match words, after with
  | [key, "[label="], ", shape=cylinder];" => some (.storage key label)
  | [key, "[label="], ", shape=box];" => some (.step key none label)
  | [source, "->", target, "[label="], "];" => some (.arrow source target (some label))
  | _, _ => none

/-- Reads a line of a Graphviz graph. -/
def dotFigure? (line : String) : Option Figure :=
  match Text.splitFirst '"' line with
  | some (before, rest) => do
    let words ← words? before
    let (label, after) ← Text.quoted? rest
    dotLabelled? words label after
  | none => do
    let (before, after) ← Text.splitFirst ';' line
    let words ← words? before
    match words, after with
    | [source, "->", target], "" => some (.arrow source target none)
    | _, _ => none

theorem dotFigure?_labelled (hwords : ∀ w ∈ words, IsWord w) (hlabel : '"' ∉ label.toList) {after : String}
    (hafter : '"' ∉ after.toList) : dotFigure? (indented words ++ "\"" ++ (label ++ "\"" ++ after)) =
      if Even (Text.backslashes label) then dotLabelled? words label after else none := by
  have hfirst : Text.splitFirst '"' (indented words ++ "\"" ++ (label ++ "\"" ++ after)) =
      some (indented words, label ++ "\"" ++ after) :=
    Text.splitFirst_append_sep (notMem_indented_of_isWord (by decide) hwords) rfl _
  unfold dotFigure?
  rw [hfirst]
  dsimp only
  rw [words?_indented hwords, Text.quoted?_append hlabel, Text.quoted?_of_notMem hafter]
  split <;> rfl

/-- **A line of a Graphviz graph is read back** exactly if no odd number of backslashes ends its label. -/
theorem dotFigure?_dotLine {f : Figure} (h : f.Sound false) :
    dotFigure? (dotLine f) = some f ↔ ∀ label, f.label? = some label → Even (Text.backslashes label) := by
  cases h with
  | @storage key label hkey hlabel =>
    have hread : dotLabelled? [key, "[label="] label ", shape=cylinder];" = some (.storage key label) := rfl
    rw [dotLine, dotFigure?_labelled (by simp [IsWord, hkey]) hlabel (by decide), hread]
    simp [Figure.label?]
  | @step key label position hkey hlabel hposition =>
    obtain rfl : position = none := by simpa using hposition
    have hread : dotLabelled? [key, "[label="] label ", shape=box];" = some (.step key none label) := rfl
    rw [dotLine, dotFigure?_labelled (by simp [IsWord, hkey]) hlabel (by decide), hread]
    simp [Figure.label?]
  | @arrow source target label hsource htarget hlabel =>
    cases label with
    | some label =>
      have hread : dotLabelled? [source, "->", target, "[label="] label "];" =
          some (.arrow source target (some label)) := rfl
      rw [dotLine, dotFigure?_labelled (by simp [IsWord, hsource, htarget]) (hlabel label rfl) (by decide),
        hread]
      simp [Figure.label?]
    | none =>
      -- no label, no quote: the line ends at the semicolon
      have hwords : ∀ w ∈ [source, "->", target], IsWord w := by simp [IsWord, hsource, htarget]
      have hquote : Text.splitFirst '"' (indented [source, "->", target] ++ ";" ++ "") = none := by
        refine Text.splitFirst_of_notMem ?_
        rw [String.append_empty, String.toList_append, List.mem_append]
        exact not_or.2 ⟨notMem_indented_of_isWord (by decide) hwords, by decide⟩
      have hend : Text.splitFirst ';' (indented [source, "->", target] ++ ";" ++ "") =
          some (indented [source, "->", target], "") :=
        Text.splitFirst_append_sep (notMem_indented_of_isWord (by decide) hwords) rfl _
      rw [dotLine, dotFigure?, hquote]
      dsimp only
      rw [hend]
      dsimp only [Option.bind_eq_bind, Option.bind_some]
      rw [words?_indented hwords]
      exact iff_of_true rfl fun text htext => absurd htext (by simp [Figure.label?])

/-! ## The language -/

/-- Graphs of Graphviz. -/
def dotLanguage : Language where
  numbered := false
  head := ["digraph lineage \x7b", "    rankdir=LR;"]
  foot := ["\x7d"]
  line := dotLine
  figure? := dotFigure?
  breaks_fixed := by
    simp only [List.cons_append, List.nil_append, List.forall_mem_cons]
    exact ⟨rfl, rfl, rfl, fun t ht => absurd ht List.not_mem_nil⟩
  breaks_line := breaks_dotLine

theorem dotBox_eq (b : Box) : dotBox b = dotLine (boxFigure false b) ++ "\n" := by
  unfold dotBox boxFigure
  cases b.shape
  all_goals
    simp only [dotLine, indented_cons, String.intercalate_cons_cons, String.intercalate_singleton]
    apply String.toList_inj.1
    simp

theorem dotArrow_eq (a : Arrow) : dotArrow a = dotLine (arrowFigure a) ++ "\n" := by
  unfold dotArrow arrowFigure
  cases a.label
  all_goals
    simp only [dotLine, Option.map_some, Option.map_none, indented_cons, String.intercalate_cons_cons,
      String.intercalate_singleton]
    apply String.toList_inj.1
    simp

theorem dot_eq (d : Drawing) : dot d = dotLanguage.write (d.figures false) := by
  have hhead : String.join (dotLanguage.head.map (· ++ "\n")) =
      "digraph lineage \x7b\n    rankdir=LR;\n" := by
    apply String.toList_inj.1
    simp [dotLanguage, String.join_cons]
  have hfoot : String.join (dotLanguage.foot.map (· ++ "\n")) = "\x7d\n" := rfl
  rw [write_figures dotBox_eq dotArrow_eq, hhead, hfoot]
  unfold dot
  rfl

end Provenance.Drawing
