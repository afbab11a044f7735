import Provenance.Proofs.Flowcharts.Language

/-!
# Mermaid flowcharts

The label of a box stands in quotes, with the position of a step in front, and ends at the first quote.  The
label of an arrow stands between bars and ends at the first bar.

* `Drawing.mermaidFigure?_mermaidLine`: **which lines are read back.**
* `Drawing.mermaid_eq`: a drawing is written in this language.
-/

namespace Provenance.Drawing

variable {key source target label : String} {words : List String}

/-! ## Writing -/

/-- The line of a figure in a Mermaid flowchart, in the parts that it is read in. -/
def mermaidLine : Figure → String
  | .storage key label => indented [key] ++ "[" ++ "(" ++ "\"" ++ (label ++ "\"" ++ ")]")
  | .step key (some n) label =>
    indented [key] ++ "[" ++ "" ++ "\"" ++ (toString (n + 1) ++ "." ++ (" " ++ label) ++ "\"" ++ "]")
  | .step key none label => indented [key] ++ "[" ++ "" ++ "\"" ++ (label ++ "\"" ++ "]")
  | .arrow source target (some label) => indented [source, "-->"] ++ "|" ++ (label ++ "|" ++ (" " ++ target))
  | .arrow source target none => indented [source, "-->", target]

/-- A line of a Mermaid flowchart breaks where its label does. -/
theorem breaks_mermaidLine {f : Figure} {numbered : Bool} (h : f.Sound numbered) :
    Text.breaks (mermaidLine f) = f.breaks := by
  have hboxed : ∀ {key mark text after : String}, IsKey key → Text.breaks mark = 0 → Text.breaks after = 0 →
      Text.breaks (indented [key] ++ "[" ++ mark ++ "\"" ++ (text ++ "\"" ++ after)) = Text.breaks text := by
    intro key mark text after hkey hmark hafter
    have hquote : Text.breaks "\"" = 0 := rfl
    have hbracket : Text.breaks "[" = 0 := rfl
    have hword : ∀ w ∈ [key], IsWord w := by simp [IsWord, hkey]
    simp only [Text.breaks_append, breaks_indented hword, hquote, hbracket, hmark, hafter, Nat.zero_add,
      Nat.add_zero]
  cases h with
  | storage hkey hlabel => exact hboxed hkey rfl rfl
  | @step key label position hkey hlabel hposition =>
    cases position with
    | none => exact hboxed hkey rfl rfl
    | some n =>
      have hdot : Text.breaks "." = 0 := rfl
      have hblank : Text.breaks " " = 0 := rfl
      rw [mermaidLine, hboxed hkey rfl rfl, Text.breaks_append, Text.breaks_append, Text.breaks_append,
        breaks_key (isKey_repr (n + 1)), hdot, hblank, Nat.zero_add, Nat.zero_add]
      rfl
  | @arrow source target label hsource htarget hlabel =>
    have hwords : ∀ w ∈ [source, "-->", target], IsWord w := by simp [IsWord, hsource, htarget]
    cases label with
    | none => exact breaks_indented hwords
    | some label =>
      have hbar : Text.breaks "|" = 0 := rfl
      have hblank : Text.breaks " " = 0 := rfl
      rw [mermaidLine, Text.breaks_append, Text.breaks_append, Text.breaks_append, Text.breaks_append,
        Text.breaks_append, breaks_indented fun w hw => hwords w (List.mem_append_left [target] hw),
        breaks_key htarget, hbar, hblank]
      simp [Figure.breaks, Figure.label?]

/-! ## Reading -/

/-- Reads the position of a step and its label. -/
def numbered? (text : String) : Option (ℕ × String) := do
  let (number, rest) ← Text.splitFirst '.' text
  let (before, label) ← Text.splitFirst ' ' rest
  match number.toNat?, before with
  | some (n + 1), "" => some (n, label)
  | _, _ => none

/-- The box with a key, with some text in quotes and the marks around it. -/
def mermaidBoxed? (key mark text after : String) : Option Figure :=
  match mark, after with
  | "(", ")]" => some (.storage key text)
  | "", "]" => (numbered? text).map fun r => .step key (some r.1) r.2
  | _, _ => none

/-- Reads a line of a Mermaid flowchart. -/
def mermaidFigure? (line : String) : Option Figure :=
  match Text.splitFirst '"' line with
  | some (before, rest) => do
    let (lead, mark) ← Text.splitFirst '[' before
    let words ← words? lead
    let (text, after) ← Text.splitFirst '"' rest
    match words with
    | [key] => mermaidBoxed? key mark text after
    | _ => none
  | none =>
    match Text.splitFirst '|' line with
    | some (before, rest) => do
      let words ← words? before
      let (label, after) ← Text.splitFirst '|' rest
      match words, Text.splitAll ' ' after with
      | [source, "-->"], ["", target] => some (.arrow source target (some label))
      | _, _ => none
    | none => do
      let words ← words? line
      match words with
      | [source, "-->", target] => some (.arrow source target none)
      | _ => none

theorem blank_append (text : String) : " " ++ text = "" ++ " " ++ text := by
  rw [String.empty_append]

theorem numbered?_append (n : ℕ) (label : String) :
    numbered? (toString (n + 1) ++ "." ++ (" " ++ label)) = some (n, label) := by
  have hdot : Text.splitFirst '.' (toString (n + 1) ++ "." ++ (" " ++ label)) =
      some (toString (n + 1), " " ++ label) :=
    Text.splitFirst_append_sep ((isKey_repr (n + 1)).notMem rfl) rfl _
  have hempty : ' ' ∉ "".toList := List.not_mem_nil
  have hblank : Text.splitFirst ' ' (" " ++ label) = some ("", label) := by
    rw [blank_append, Text.splitFirst_append_sep hempty rfl]
  have hnumber : (toString (n + 1)).toNat? = some (n + 1) := Nat.toNat?_repr (n + 1)
  unfold numbered?
  rw [hdot]
  dsimp only [Option.bind_eq_bind, Option.bind_some]
  rw [hblank]
  dsimp only [Option.bind_some]
  rw [hnumber]
  rfl

theorem mermaidFigure?_boxed (hkey : IsKey key) {mark text : String} (hmark : '"' ∉ mark.toList)
    (htext : '"' ∉ text.toList) (after : String) :
    mermaidFigure? (indented [key] ++ "[" ++ mark ++ "\"" ++ (text ++ "\"" ++ after)) =
      mermaidBoxed? key mark text after := by
  have hword : ∀ w ∈ [key], IsWord w := by simp [IsWord, hkey]
  have hbracket : '[' ∉ (indented [key]).toList :=
    notMem_indented (by decide) (List.forall_mem_singleton.2 (hkey.notMem rfl))
  have hlead : '"' ∉ (indented [key] ++ "[" ++ mark).toList := by
    rw [String.toList_append, String.toList_append, List.mem_append, List.mem_append]
    exact not_or.2 ⟨not_or.2 ⟨notMem_indented_of_isWord (by decide) hword, by decide⟩, hmark⟩
  unfold mermaidFigure?
  rw [Text.splitFirst_append_sep hlead rfl]
  dsimp only
  rw [Text.splitFirst_append_sep hbracket rfl]
  dsimp only [Option.bind_eq_bind, Option.bind_some]
  rw [words?_indented hword]
  dsimp only [Option.bind_some]
  rw [Text.splitFirst_append_sep htext rfl]
  rfl

/-- **A line of a Mermaid flowchart is read back** exactly if no bar ends the label of its arrow early. -/
theorem mermaidFigure?_mermaidLine {f : Figure} (h : f.Sound true) :
    mermaidFigure? (mermaidLine f) = some f ↔ ∀ param, f.param? = some param → '|' ∉ param.toList := by
  cases h with
  | @storage key label hkey hlabel =>
    rw [mermaidLine, mermaidFigure?_boxed hkey (by decide) hlabel]
    exact iff_of_true rfl fun text htext => absurd htext (by simp [Figure.param?])
  | @step key label position hkey hlabel hposition =>
    obtain ⟨n, rfl⟩ := Option.isSome_iff_exists.1 hposition
    have htext : '"' ∉ (toString (n + 1) ++ "." ++ (" " ++ label)).toList := by
      simp only [String.toList_append, List.mem_append, not_or]
      exact ⟨⟨(isKey_repr (n + 1)).notMem rfl, by decide⟩, by decide, hlabel⟩
    rw [mermaidLine, mermaidFigure?_boxed hkey (by decide) htext]
    refine iff_of_true ?_ fun text htext => absurd htext (by simp [Figure.param?])
    unfold mermaidBoxed?
    rw [numbered?_append]
    rfl
  | @arrow source target label hsource htarget hlabel =>
    cases label with
    | none =>
      have hwords : ∀ w ∈ [source, "-->", target], IsWord w := by simp [IsWord, hsource, htarget]
      rw [mermaidLine, mermaidFigure?,
        Text.splitFirst_of_notMem (notMem_indented_of_isWord (by decide) hwords)]
      dsimp only
      rw [Text.splitFirst_of_notMem (notMem_indented_of_isWord (by decide) hwords)]
      dsimp only
      rw [words?_indented hwords]
      exact iff_of_true rfl fun text htext => absurd htext (by simp [Figure.param?])
    | some label =>
      have hwords : ∀ w ∈ [source, "-->"], IsWord w := by simp [IsWord, hsource]
      have hquote : '"' ∉ (indented [source, "-->"] ++ "|" ++ (label ++ "|" ++ (" " ++ target))).toList := by
        simp only [String.toList_append, List.mem_append, not_or]
        exact ⟨⟨notMem_indented_of_isWord (by decide) hwords, by decide⟩,
          ⟨hlabel label rfl, by decide⟩, by decide, htarget.notMem rfl⟩
      rw [mermaidLine, mermaidFigure?, Text.splitFirst_of_notMem hquote]
      dsimp only
      rw [Text.splitFirst_append_sep (notMem_indented_of_isWord (by decide) hwords) rfl]
      dsimp only
      rw [words?_indented hwords]
      dsimp only [Option.bind_eq_bind, Option.bind_some]
      refine ⟨fun hread param hparam => ?_, fun hbar => ?_⟩
      · -- what is read stops at the first bar, so a label that is read back has none
        obtain rfl : label = param := Option.some.inj hparam
        obtain ⟨⟨before, after⟩, hsplit, hread⟩ := Option.bind_eq_some_iff.1 hread
        dsimp only at hread
        split at hread
        · obtain ⟨-, -, rfl⟩ : _ ∧ _ ∧ before = label := by simpa using hread
          exact Text.notMem_of_splitFirst hsplit
        · exact absurd hread (by simp)
      · have htarget : Text.splitAll ' ' (" " ++ target) = ["", target] := by
          rw [blank_append, Text.splitAll_append_sep rfl, Text.splitAll_of_notMem (htarget.notMem rfl)]
          rfl
        rw [Text.splitFirst_append_sep (hbar label rfl) rfl]
        dsimp only [Option.bind_some]
        rw [htarget]
        rfl

/-! ## The language -/

/-- Mermaid flowcharts. -/
def mermaidLanguage : Language where
  numbered := true
  head := ["flowchart LR"]
  foot := []
  line := mermaidLine
  figure? := mermaidFigure?
  breaks_fixed := List.forall_mem_singleton.2 rfl
  breaks_line := breaks_mermaidLine

theorem mermaidBox_eq (b : Box) : mermaidBox b = mermaidLine (boxFigure true b) ++ "\n" := by
  unfold mermaidBox boxFigure
  cases b.shape <;> cases b.order
  all_goals
    simp only [mermaidLine, if_true, indented_cons, String.intercalate_singleton]
    apply String.toList_inj.1
    simp

theorem mermaidArrow_eq (a : Arrow) : mermaidArrow a = mermaidLine (arrowFigure a) ++ "\n" := by
  unfold mermaidArrow arrowFigure
  cases a.label
  all_goals
    simp only [mermaidLine, Option.map_some, Option.map_none, indented_cons, String.intercalate_cons_cons,
      String.intercalate_singleton]
    apply String.toList_inj.1
    simp

theorem mermaid_eq (d : Drawing) : mermaid d = mermaidLanguage.write (d.figures true) := by
  have hhead : String.join (mermaidLanguage.head.map (· ++ "\n")) = "flowchart LR\n" := rfl
  have hfoot : String.join (mermaidLanguage.foot.map (· ++ "\n")) = "" := rfl
  rw [write_figures mermaidBox_eq mermaidArrow_eq, hhead, hfoot, String.append_empty]
  unfold mermaid
  rfl

end Provenance.Drawing
