import Mathlib.Algebra.Group.Nat.Even
import Mathlib.Algebra.GroupWithZero.Nat
import Mathlib.Data.List.Induction
import Provenance.Proofs.Text.Pieces

/-!
# Lines and quotes

Where every line ends in a line break, each line break inside of what is written on a line makes one line
more (`length_splitAll`, `lines_join`).  A text in quotes ends at the first quote that no backslash keeps,
and a backslash that is kept itself keeps nothing.

* `lines_join`: the lines of a text that is put together from lines.
* `quoted?_append`: **what stands in quotes ends where its quote is written exactly if an even number of
  backslashes stands before that quote.**
-/

namespace Provenance.Text

/-! ## Lines -/

/-- The lines of a text, each of which ends in a line break. -/
def lines (s : String) : List String := (splitAll '\n' s).dropLast

/-- How many line breaks a text has. -/
def breaks (s : String) : ℕ := s.toList.count '\n'

@[simp] theorem breaks_append (s t : String) : breaks (s ++ t) = breaks s + breaks t := by
  unfold breaks
  rw [String.toList_append, List.count_append]

theorem breaks_eq_zero_iff {s : String} : breaks s = 0 ↔ '\n' ∉ s.toList := List.count_eq_zero

theorem length_pieces (p : Char → Bool) (cs : List Char) : (pieces p cs).length = cs.countP p + 1 := by
  induction cs with
  | nil => rfl
  | cons c cs ih =>
    rw [pieces, List.countP_cons]
    split
    · rw [List.length_cons, ih]
    · obtain ⟨w, ws, hw⟩ := List.exists_cons_of_ne_nil (pieces_ne_nil p cs)
      rw [hw] at ih ⊢
      exact ih

/-- Each separator makes one piece more. -/
theorem length_splitAll (sep : Char) (s : String) : (splitAll sep s).length = s.toList.count sep + 1 := by
  rw [splitAll, List.length_map, length_pieces]
  rfl

/-- **The lines of what is put together from lines.** -/
theorem lines_join (ts : List String) :
    lines (String.join (ts.map (· ++ "\n"))) = ts.flatMap (splitAll '\n') := by
  have hpieces : splitAll '\n' (String.join (ts.map (· ++ "\n"))) = ts.flatMap (splitAll '\n') ++ [""] := by
    induction ts with
    | nil => rfl
    | cons t ts ih =>
      rw [List.map_cons, String.join_cons, splitAll_append_sep rfl, ih, List.flatMap_cons, List.append_assoc]
  rw [lines, hpieces, List.dropLast_concat]

/-- Each line break makes one line more. -/
theorem length_flatMap_splitAll (ts : List String) :
    (ts.flatMap (splitAll '\n')).length = ts.length + (ts.map breaks).sum := by
  induction ts with
  | nil => rfl
  | cons t ts ih =>
    rw [List.flatMap_cons, List.length_append, ih, length_splitAll, List.length_cons, List.map_cons,
      List.sum_cons]
    unfold breaks
    omega

theorem flatMap_splitAll_of_breaks {ts : List String} (h : ∀ t ∈ ts, breaks t = 0) :
    ts.flatMap (splitAll '\n') = ts := by
  induction ts with
  | nil => rfl
  | cons t ts ih =>
    have ht := splitAll_of_notMem (breaks_eq_zero_iff.1 (h t List.mem_cons_self))
    rw [List.flatMap_cons, ht, ih fun u hu => h u (List.mem_cons_of_mem t hu), List.singleton_append]

/-! ## Quotes -/

/-- Reads up to the quote that ends; `kept` tells whether a backslash keeps the next character. -/
def quotedFrom : Bool → List Char → Option (List Char × List Char)
  | _, [] => none
  | true, c :: cs => (quotedFrom false cs).map fun r => (c :: r.1, r.2)
  | false, c :: cs =>
    if c = '"' then some ([], cs)
    else (quotedFrom (c == '\\') cs).map fun r => (c :: r.1, r.2)

/-- What stands in quotes that are open already, and what stands behind them. -/
def quoted? (s : String) : Option (String × String) :=
  (quotedFrom false s.toList).map fun r => (String.ofList r.1, String.ofList r.2)

/-- Whether the character behind a text is kept, if the one in front of the text is or is not. -/
def keeps (kept : Bool) (cs : List Char) : Bool := cs.foldl (fun kept c => !kept && c == '\\') kept

/-- How many backslashes a text ends in. -/
def backslashes (s : String) : ℕ := (s.toList.reverse.takeWhile (· == '\\')).length

theorem quotedFrom_append {cs : List Char} (h : '"' ∉ cs) (kept : Bool) (rest : List Char) :
    quotedFrom kept (cs ++ '"' :: rest) =
      if keeps kept cs then (quotedFrom false rest).map fun r => (cs ++ '"' :: r.1, r.2)
      else some (cs, rest) := by
  induction cs generalizing kept with
  | nil => cases kept <;> rfl
  | cons c cs ih =>
    obtain ⟨hc, hcs⟩ : c ≠ '"' ∧ '"' ∉ cs := by simpa [eq_comm] using h
    have hrest : ∀ kept, ((quotedFrom kept (cs ++ '"' :: rest)).map fun r => (c :: r.1, r.2)) =
        if keeps kept cs then (quotedFrom false rest).map fun r => (c :: cs ++ '"' :: r.1, r.2)
        else some (c :: cs, rest) := by
      intro kept
      rw [ih hcs kept]
      split
      · rw [Option.map_map]
        rfl
      · rfl
    cases kept with
    | true => exact hrest false
    | false =>
      rw [List.cons_append, quotedFrom, if_neg hc]
      exact hrest (c == '\\')

theorem quotedFrom_of_notMem {cs : List Char} (h : '"' ∉ cs) (kept : Bool) : quotedFrom kept cs = none := by
  induction cs generalizing kept with
  | nil => cases kept <;> rfl
  | cons c cs ih =>
    obtain ⟨hc, hcs⟩ : c ≠ '"' ∧ '"' ∉ cs := by simpa [eq_comm] using h
    cases kept with
    | true => rw [quotedFrom, ih hcs, Option.map_none]
    | false => rw [quotedFrom, if_neg hc, ih hcs, Option.map_none]

/-- A character is kept behind an odd number of backslashes. -/
theorem keeps_iff (s : String) : keeps false s.toList = true ↔ ¬ Even (backslashes s) := by
  unfold backslashes
  generalize s.toList = cs
  -- from the end, where both sides look: a last backslash turns the answer around, anything else resets it
  induction cs using List.reverseRecOn with
  | nil => simp [keeps]
  | append_singleton cs c ih =>
    unfold keeps at ih ⊢
    rw [List.foldl_append, List.foldl_cons, List.foldl_nil, List.reverse_append, List.reverse_singleton,
      List.singleton_append, List.takeWhile_cons]
    by_cases hc : c = '\\'
    · simp [hc, Nat.even_add_one, ← ih]
    · simp [hc]

/-- **What stands in quotes ends where its quote is written** exactly if no odd number of backslashes stands
before it; else the quote belongs to the text, which goes on to a later one. -/
theorem quoted?_append {label : String} (h : '"' ∉ label.toList) (rest : String) :
    quoted? (label ++ "\"" ++ rest) =
      if Even (backslashes label) then some (label, rest)
      else (quoted? rest).map fun r => (label ++ "\"" ++ r.1, r.2) := by
  have hlist : (label ++ "\"" ++ rest).toList = label.toList ++ '"' :: rest.toList :=
    toList_append_sep rfl label rest
  unfold quoted?
  rw [hlist, quotedFrom_append h]
  by_cases hodd : keeps false label.toList = true
  · rw [if_pos hodd, if_neg ((keeps_iff label).1 hodd), Option.map_map, Option.map_map]
    refine congrArg (Option.map · _) (funext fun r => ?_)
    simp [String.ofList_append, String.ofList_cons, String.append_assoc]
  · have heven : Even (backslashes label) := not_not.1 fun hnot => hodd ((keeps_iff label).2 hnot)
    rw [if_neg hodd, if_pos heven]
    simp

theorem quoted?_of_notMem {s : String} (h : '"' ∉ s.toList) : quoted? s = none := by
  rw [quoted?, quotedFrom_of_notMem h, Option.map_none]

theorem quoted?_append_eq_some_iff {label : String} (h : '"' ∉ label.toList) (rest : String) :
    quoted? (label ++ "\"" ++ rest) = some (label, rest) ↔ Even (backslashes label) := by
  rw [quoted?_append h]
  split
  · simp [*]
  · refine iff_of_false (fun hread => ?_) ‹_›
    obtain ⟨r, -, hr⟩ := Option.map_eq_some_iff.1 hread
    have hlength := congrArg String.length (Prod.mk.inj hr).1
    have hquote : "\"".length = 1 := rfl
    rw [String.length_append, String.length_append, hquote] at hlength
    omega

/-! ## Swapped characters -/

section

variable {a b c : Char} {s : String}

/-- A character that is neither taken out nor put in stands where it stood. -/
theorem swapped_eq_iff (ha : c ≠ a) (hb : c ≠ b) (d : Char) : (if d = a then b else d) = c ↔ d = c := by
  split
  · rename_i hda
    exact iff_of_false (fun h => hb h.symm) fun h => ha (h.symm.trans hda)
  · rfl

theorem count_swap (ha : c ≠ a) (hb : c ≠ b) : (swap a b s).toList.count c = s.toList.count c := by
  unfold swap
  rw [String.toList_ofList, List.count, List.countP_map]
  refine List.countP_congr fun d hd => ?_
  simp only [Function.comp_apply, beq_iff_eq]
  exact swapped_eq_iff ha hb d

theorem mem_swap_iff (ha : c ≠ a) (hb : c ≠ b) : c ∈ (swap a b s).toList ↔ c ∈ s.toList := by
  rw [← List.count_pos_iff, ← List.count_pos_iff, count_swap ha hb]

theorem notMem_swap (hab : a ≠ b) : a ∉ (swap a b s).toList := by
  unfold swap
  rw [String.toList_ofList, List.mem_map]
  rintro ⟨d, -, hd⟩
  split at hd
  · exact hab hd.symm
  · exact absurd hd ‹_›

theorem backslashes_swap (ha : '\\' ≠ a) (hb : '\\' ≠ b) : backslashes (swap a b s) = backslashes s := by
  unfold backslashes swap
  rw [String.toList_ofList, ← List.map_reverse, List.takeWhile_map, List.length_map]
  refine congrArg (fun p => (s.toList.reverse.takeWhile p).length) (funext fun d => ?_)
  rw [Function.comp_apply, Bool.eq_iff_iff, beq_iff_eq, beq_iff_eq]
  exact swapped_eq_iff ha hb d

end

end Provenance.Text
