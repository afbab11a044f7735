import Mathlib.Algebra.BigOperators.Group.List.Basic
import Mathlib.Data.List.Forall2
import Provenance.Proofs.Drawings
import Provenance.Proofs.Text.Lines

/-!
# Languages of flowcharts

A flowchart is written line by line: some fixed lines, and between them one for each figure.  So it is read
back exactly if each line is read back and none breaks; a line that breaks would be read as two, and there are
as many lines as figures.

* `Drawing.Language`: how figures are written on lines and read from them.
* `Drawing.Language.read?_write_eq_some_iff`: **what is written is read back exactly if each line is.**
* `Drawing.words?_indented`: the words of an indented line.
-/

namespace Provenance

universe u v

theorem mapM_eq_some_iff {α : Type u} {β : Type v} {f : α → Option β} {l : List α} {l' : List β} :
    l.mapM f = some l' ↔ List.Forall₂ (fun a b => f a = some b) l l' := by
  induction l generalizing l' with
  | nil => simp [eq_comm]
  | cons a l ih =>
    rw [List.mapM_cons]
    cases l' with
    | nil => cases f a <;> cases l.mapM f <;> simp
    | cons b l' =>
      rw [List.forall₂_cons, ← ih]
      cases f a <;> cases l.mapM f <;> simp

namespace Drawing

/-! ## Figures -/

/-- What a line of a flowchart shows; a step may be shown with its position. -/
inductive Figure where
  | storage (key label : String)
  | step (key : String) (position : Option ℕ) (label : String)
  | arrow (source target : String) (label : Option String)
  deriving DecidableEq

namespace Figure

/-- The label of a figure. -/
def label? : Figure → Option String
  | storage _ label => some label
  | step _ _ label => some label
  | arrow _ _ label => label

/-- The label of an arrow. -/
def param? : Figure → Option String
  | arrow _ _ label => label
  | _ => none

/-- How many line breaks the label of a figure has. -/
def breaks (f : Figure) : ℕ := (f.label?.map Text.breaks).getD 0

end Figure

/-- The figure of a box. -/
def boxFigure (numbered : Bool) (b : Box) : Figure :=
  match b.shape with
  | .storage => .storage b.id (plain b.label)
  | .step => .step b.id (if numbered then b.order else none) (plain b.label)

/-- The figure of an arrow. -/
def arrowFigure (a : Arrow) : Figure := .arrow a.source a.target (a.label.map plain)

/-- What a flowchart of a drawing should show. -/
def figures (numbered : Bool) (d : Drawing) : List Figure :=
  d.boxes.map (boxFigure numbered) ++ d.arrows.map arrowFigure

/-- The names of the parameters, as the arrows have them. -/
def params (d : Drawing) : List String := d.arrows.filterMap (·.label)

/-- All that a client names in a drawing. -/
def labels (d : Drawing) : List String := d.boxes.map (·.label) ++ d.params

/-! ## Words -/

/-- A key of letters and digits. -/
def IsKey (key : String) : Prop := ∀ c ∈ key.toList, c.isAlphanum = true

variable {key source target label : String} {c : Char} {words : List String}

theorem IsKey.notMem (h : IsKey key) (hc : c.isAlphanum = false) : c ∉ key.toList :=
  fun hmem => absurd (h c hmem) (by rw [hc]; exact Bool.false_ne_true)

theorem isKey_repr (n : ℕ) : IsKey (toString n) := by
  intro c hc
  rw [Nat.toString_eq_repr, Nat.repr_eq_ofList_toDigits, String.toList_ofList] at hc
  have hdigit : c.isDigit = true := Nat.isDigit_of_mem_toDigits (by decide) (by decide) hc
  rw [Char.isAlphanum, hdigit, Bool.or_true]

theorem IsKey.append (h : IsKey source) (h' : IsKey target) : IsKey (source ++ target) := by
  intro c hc
  rw [String.toList_append, List.mem_append] at hc
  exact hc.elim (h c) (h' c)

theorem isKey_assetKey (k : ℕ) : IsKey (assetKey k) :=
  IsKey.append (fun c hc => by obtain rfl := List.mem_singleton.1 hc; rfl) (isKey_repr k)

theorem isKey_stepKey (k : ℕ) : IsKey (stepKey k) :=
  IsKey.append (fun c hc => by obtain rfl := List.mem_singleton.1 hc; rfl) (isKey_repr k)

/-- A word of a line is a key or a mark. -/
def IsWord (w : String) : Prop := IsKey w ∨ w ∈ ["->", "-->", "[label="]

/-- What ends labels and lines stands in no word. -/
theorem IsWord.notMem {w : String} (h : IsWord w) (hc : c ∈ [' ', '"', '\n', ';', '|']) : c ∉ w.toList := by
  have hkeys : ∀ c ∈ [' ', '"', '\n', ';', '|'], c.isAlphanum = false := by
    simp only [List.forall_mem_cons, List.not_mem_nil, false_implies, implies_true, and_true]
    decide
  have hmarks : ∀ w ∈ ["->", "-->", "[label="], ∀ c ∈ [' ', '"', '\n', ';', '|'], c ∉ w.toList := by
    simp only [List.forall_mem_cons, List.not_mem_nil, false_implies, implies_true, and_true]
    decide
  exact h.elim (fun hkey => hkey.notMem (hkeys c hc)) fun hmark => hmarks w hmark c hc

/-- An indented line of some words. -/
def indented (words : List String) : String := " ".intercalate (["", "", "", ""] ++ words)

/-- The words of an indented line. -/
def words? (line : String) : Option (List String) :=
  match Text.splitAll ' ' line with
  | "" :: "" :: "" :: "" :: words => some words
  | _ => none

theorem words?_indented (h : ∀ w ∈ words, IsWord w) : words? (indented words) = some words := by
  have hsplit : Text.splitAll ' ' (indented words) = "" :: "" :: "" :: "" :: words := by
    refine Text.splitAll_intercalate rfl (List.cons_ne_nil _ _) fun w hw => ?_
    rcases List.mem_append.1 hw with hw | hw
    · obtain rfl : w = "" := by simpa using hw
      exact List.not_mem_nil
    · exact (h w hw).notMem (by decide)
  unfold words?
  rw [hsplit]
  rfl

theorem notMem_intercalate (hc : c ≠ ' ') {ts : List String} (h : ∀ t ∈ ts, c ∉ t.toList) :
    c ∉ (" ".intercalate ts).toList := by
  induction ts with
  | nil => exact List.not_mem_nil
  | cons t ts ih =>
    cases ts with
    | nil => simpa using h
    | cons u ts =>
      have hrest := ih fun w hw => h w (List.mem_cons_of_mem t hw)
      rw [String.intercalate_cons_cons, String.toList_append, String.toList_append, List.mem_append,
        List.mem_append]
      have hblank : c ∉ " ".toList := fun hmem => hc (List.mem_singleton.1 hmem)
      exact not_or.2 ⟨not_or.2 ⟨h t List.mem_cons_self, hblank⟩, hrest⟩

theorem notMem_indented (hc : c ≠ ' ') (h : ∀ w ∈ words, c ∉ w.toList) : c ∉ (indented words).toList := by
  refine notMem_intercalate hc fun w hw => ?_
  rcases List.mem_append.1 hw with hw | hw
  · obtain rfl : w = "" := by simpa using hw
    exact List.not_mem_nil
  · exact h w hw

/-- What ends labels and lines stands in no line of words. -/
theorem notMem_indented_of_isWord (hc : c ∈ ['"', '\n', ';', '|']) (h : ∀ w ∈ words, IsWord w) :
    c ∉ (indented words).toList :=
  notMem_indented (fun hblank => absurd (hblank ▸ hc) (by decide)) fun w hw =>
    (h w hw).notMem (List.mem_cons_of_mem _ hc)

/-- A sound figure has keys of letters and digits and a label without quotes. -/
inductive Figure.Sound (numbered : Bool) : Figure → Prop
  | storage {key label : String} : IsKey key → '"' ∉ label.toList → Sound numbered (.storage key label)
  | step {key label : String} {position : Option ℕ} : IsKey key → '"' ∉ label.toList →
      position.isSome = numbered → Sound numbered (.step key position label)
  | arrow {source target : String} {label : Option String} : IsKey source → IsKey target →
      (∀ text, label = some text → '"' ∉ text.toList) → Sound numbered (.arrow source target label)

theorem breaks_key (h : IsKey key) : Text.breaks key = 0 := Text.breaks_eq_zero_iff.2 (h.notMem rfl)

theorem breaks_indented (h : ∀ w ∈ words, IsWord w) : Text.breaks (indented words) = 0 :=
  Text.breaks_eq_zero_iff.2 (notMem_indented_of_isWord (by decide) h)

theorem indented_cons (w : String) (ws : List String) :
    indented (w :: ws) = "    " ++ " ".intercalate (w :: ws) := by
  have hblanks : " " ++ (" " ++ (" " ++ " ")) = "    " := rfl
  unfold indented
  simp only [List.cons_append, List.nil_append, String.intercalate_cons_cons, String.empty_append]
  rw [← hblanks]
  simp only [String.append_assoc]

/-! ## Languages -/

/-- A language of flowcharts: some fixed lines, and between them one for each figure, which breaks only where
the label of the figure does. -/
structure Language where
  numbered : Bool
  head : List String
  foot : List String
  line : Figure → String
  figure? : String → Option Figure
  breaks_fixed : ∀ t ∈ head ++ foot, Text.breaks t = 0
  breaks_line : ∀ {f : Figure}, f.Sound numbered → Text.breaks (line f) = f.breaks

namespace Language

variable {l : Language} {fs : List Figure}

/-- Writes figures, line by line. -/
def write (l : Language) (fs : List Figure) : String :=
  String.join ((l.head ++ fs.map l.line ++ l.foot).map (· ++ "\n"))

/-- Reads figures, line by line. -/
def read? (l : Language) (s : String) : Option (List Figure) := do
  let rest ← (Text.lines s).dropPrefix? l.head
  let body ← rest.dropSuffix? l.foot
  body.mapM l.figure?

theorem lines_write (l : Language) (fs : List Figure) :
    Text.lines (l.write fs) = l.head ++ ((fs.map l.line).flatMap (Text.splitAll '\n') ++ l.foot) := by
  have hhead := Text.flatMap_splitAll_of_breaks fun t ht => l.breaks_fixed t (List.mem_append_left _ ht)
  have hfoot := Text.flatMap_splitAll_of_breaks fun t ht => l.breaks_fixed t (List.mem_append_right _ ht)
  rw [write, Text.lines_join, List.flatMap_append, List.flatMap_append, hhead, hfoot, List.append_assoc]

/-- What is read of what was written: the fixed lines are taken away. -/
theorem read?_write (l : Language) (fs : List Figure) :
    l.read? (l.write fs) = ((fs.map l.line).flatMap (Text.splitAll '\n')).mapM l.figure? := by
  have hdrop : ((fs.map l.line).flatMap (Text.splitAll '\n') ++ l.foot).dropSuffix? l.foot =
      some ((fs.map l.line).flatMap (Text.splitAll '\n')) :=
    List.dropSuffix?_eq_some_iff.2 ⟨l.foot, rfl, beq_self_eq_true _⟩
  unfold read?
  rw [lines_write, List.dropPrefix?_append_of_beq _ (beq_self_eq_true l.head)]
  dsimp only [Option.bind_eq_bind, Option.bind_some]
  rw [hdrop, Option.bind_some]

/-- **What is written is read back exactly if each line is.**  A broken line would be read as two, and there
are as many lines as figures. -/
theorem read?_write_eq_some_iff : l.read? (l.write fs) = some fs ↔
    ∀ f ∈ fs, Text.breaks (l.line f) = 0 ∧ l.figure? (l.line f) = some f := by
  have hbody : (∀ f ∈ fs, Text.breaks (l.line f) = 0) →
      (l.read? (l.write fs) = some fs ↔ ∀ f ∈ fs, l.figure? (l.line f) = some f) := by
    intro hbreaks
    rw [read?_write, Text.flatMap_splitAll_of_breaks (List.forall_mem_map.2 hbreaks), mapM_eq_some_iff,
      List.forall₂_map_left_iff, List.forall₂_same]
  refine ⟨fun hread => ?_, fun h => (hbody fun f hf => (h f hf).1).2 fun f hf => (h f hf).2⟩
  have hbreaks : ∀ f ∈ fs, Text.breaks (l.line f) = 0 := by
    have hlength := (mapM_eq_some_iff.1 ((read?_write l fs).symm.trans hread)).length_eq
    rw [Text.length_flatMap_splitAll, List.length_map] at hlength
    have hzero : ((fs.map l.line).map Text.breaks).sum = 0 := by omega
    intro f hf
    exact List.sum_eq_zero_iff.1 hzero _ (List.mem_map_of_mem (List.mem_map_of_mem hf))
  exact fun f hf => ⟨hbreaks f hf, (hbody hbreaks).1 hread f hf⟩

theorem map_breaks_line (hfs : ∀ f ∈ fs, f.Sound l.numbered) :
    (fs.map l.line).map Text.breaks = fs.map (·.breaks) := by
  rw [List.map_map]
  exact List.map_congr_left fun f hf => l.breaks_line (hfs f hf)

/-- There is a line for each fixed line and for each figure, and one more for each line break in a label. -/
theorem length_lines_write (hfs : ∀ f ∈ fs, f.Sound l.numbered) : (Text.lines (l.write fs)).length =
    l.head.length + l.foot.length + fs.length + (fs.map (·.breaks)).sum := by
  rw [lines_write, List.length_append, List.length_append, Text.length_flatMap_splitAll,
    map_breaks_line hfs, List.length_map]
  omega

end Language

/-- Where boxes and arrows are written as lines of a language, a drawing is written in it. -/
theorem write_figures {l : Language} {numbered : Bool} {ofBox : Box → String} {ofArrow : Arrow → String}
    (hbox : ∀ b, ofBox b = l.line (boxFigure numbered b) ++ "\n")
    (harrow : ∀ a, ofArrow a = l.line (arrowFigure a) ++ "\n") (d : Drawing) :
    l.write (d.figures numbered) = String.join (l.head.map (· ++ "\n")) ++ String.join (d.boxes.map ofBox) ++
      String.join (d.arrows.map ofArrow) ++ String.join (l.foot.map (· ++ "\n")) := by
  have hboxes : ((d.boxes.map (boxFigure numbered)).map l.line).map (· ++ "\n") = d.boxes.map ofBox := by
    rw [List.map_map, List.map_map]
    exact List.map_congr_left fun b _ => (hbox b).symm
  have harrows : ((d.arrows.map arrowFigure).map l.line).map (· ++ "\n") = d.arrows.map ofArrow := by
    rw [List.map_map, List.map_map]
    exact List.map_congr_left fun a _ => (harrow a).symm
  unfold Language.write figures
  rw [List.map_append, List.map_append, List.map_append, List.map_append, hboxes, harrows]
  simp only [String.join_append, String.append_assoc]

end Drawing

end Provenance
