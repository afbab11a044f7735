import Mathlib.Data.List.TakeWhile
import Mathlib.Data.Nat.Notation
import Provenance.Text.Blank

/-!
# Texts and their separators

A text is split into the pieces between the characters that separate.  Pieces without separators are got
back from the text that they are joined to (`splitAll_intercalate`), whatever the separator is, and what is
written behind a text without one goes to its last piece (`exists_splitAll_append`).
-/

namespace Provenance.Text

/-- A separator parts the pieces in front of it from those behind it. -/
theorem pieces_append_cons {p : Char → Bool} {c : Char} (hc : p c = true) (cs ds : List Char) :
    pieces p (cs ++ c :: ds) = pieces p cs ++ pieces p ds := by
  induction cs with
  | nil => simp [pieces, hc]
  | cons b cs ih =>
    rw [List.cons_append, pieces, pieces]
    split
    · rw [ih, List.cons_append]
    · obtain ⟨w, ws, hw⟩ := List.exists_cons_of_ne_nil (pieces_ne_nil p cs)
      rw [ih, hw]
      rfl

/-- A text without separators is one piece. -/
theorem pieces_of_all_not {p : Char → Bool} {cs : List Char} (h : ∀ c ∈ cs, p c = false) :
    pieces p cs = [cs] := by
  induction cs with
  | nil => rfl
  | cons c cs ih =>
    rw [pieces, h c List.mem_cons_self, ih fun c' hc' => h c' (List.mem_cons_of_mem c hc')]
    rfl

theorem toList_append_sep {sep : Char} {mark : String} (hmark : mark.toList = [sep]) (s t : String) :
    (s ++ mark ++ t).toList = s.toList ++ sep :: t.toList := by
  rw [String.toList_append, String.toList_append, hmark, List.append_assoc, List.singleton_append]

theorem splitAll_append_sep {sep : Char} {mark : String} (hmark : mark.toList = [sep]) (s t : String) :
    splitAll sep (s ++ mark ++ t) = splitAll sep s ++ splitAll sep t := by
  rw [splitAll, toList_append_sep hmark, pieces_append_cons (p := (· == sep)) (beq_self_eq_true sep),
    List.map_append]
  rfl

theorem splitAll_of_notMem {sep : Char} {s : String} (h : sep ∉ s.toList) : splitAll sep s = [s] := by
  have hpiece : pieces (· == sep) s.toList = [s.toList] :=
    pieces_of_all_not fun c hc => beq_false_of_ne fun heq => h (heq ▸ hc)
  rw [splitAll, hpiece, List.map_singleton, String.ofList_toList]

/-- **Texts without separators are the pieces of what they are joined to.** -/
theorem splitAll_intercalate {sep : Char} {mark : String} (hmark : mark.toList = [sep]) {ts : List String}
    (hne : ts ≠ []) (h : ∀ t ∈ ts, sep ∉ t.toList) : splitAll sep (mark.intercalate ts) = ts := by
  induction ts with
  | nil => exact absurd rfl hne
  | cons t ts ih =>
    have ht := splitAll_of_notMem (h t List.mem_cons_self)
    cases ts with
    | nil => rw [String.intercalate_singleton, ht]
    | cons u ts =>
      have hrest := ih (List.cons_ne_nil u ts) fun v hv => h v (List.mem_cons_of_mem t hv)
      rw [String.intercalate_cons_cons, splitAll_append_sep hmark, ht, hrest, List.singleton_append]

theorem splitFirst_of_notMem {sep : Char} {s : String} (h : sep ∉ s.toList) : splitFirst sep s = none := by
  have hdrop : s.toList.dropWhile (· != sep) = [] :=
    List.dropWhile_eq_nil_iff.2 fun c hc => bne_iff_ne.2 fun hsep => h (hsep ▸ hc)
  simp only [splitFirst, hdrop]

/-- The first separator has none in front of it. -/
theorem notMem_of_splitFirst {sep : Char} {s before rest : String}
    (h : splitFirst sep s = some (before, rest)) : sep ∉ before.toList := by
  unfold splitFirst at h
  dsimp only at h
  split at h
  · exact absurd h (by simp)
  · obtain ⟨rfl, -⟩ := Prod.mk.inj (Option.some.inj h)
    rw [String.toList_ofList]
    exact fun hsep => absurd (List.mem_takeWhile_imp hsep) (by simp)

theorem splitFirst_append_sep {sep : Char} {s mark : String} (h : sep ∉ s.toList)
    (hmark : mark.toList = [sep]) (t : String) : splitFirst sep (s ++ mark ++ t) = some (s, t) := by
  have hbefore : ∀ c ∈ s.toList, (c != sep) = true := fun c hc => bne_iff_ne.2 fun hsep => h (hsep ▸ hc)
  simp [splitFirst, toList_append_sep hmark, List.dropWhile_append_of_pos hbefore,
    List.takeWhile_append_of_pos hbefore]

/-- A text ends in a piece, and what is written behind it, without a separator, goes to that piece. -/
theorem exists_splitAll_append (sep : Char) (s : String) :
    ∃ (init : List String) (last : String),
      (∀ t : String, sep ∉ t.toList → splitAll sep (s ++ t) = init ++ [last ++ t]) ∧
        (last = "" → s = "" ∨ [sep] <:+ s.toList) := by
  have hpieces : ∀ ds : List Char, sep ∉ ds → pieces (· == sep) ds = [ds] := fun ds hds =>
    pieces_of_all_not fun c hc => beq_false_of_ne fun h => hds (h ▸ hc)
  by_cases hsep : sep ∈ s.toList
  · obtain ⟨ds, cs, hs, hlast⟩ := List.eq_append_cons_of_mem (List.mem_reverse.2 hsep)
    have hs : s.toList = cs.reverse ++ sep :: ds.reverse := by
      rw [← List.reverse_reverse s.toList, hs]
      simp
    refine ⟨(pieces (· == sep) cs.reverse).map String.ofList, String.ofList ds.reverse,
      fun t ht => ?_, fun h => .inr ?_⟩
    · have hnot : sep ∉ ds.reverse ++ t.toList := by simp [hlast, ht]
      rw [splitAll, String.toList_append, hs, List.append_assoc, List.cons_append,
        pieces_append_cons (p := (· == sep)) (beq_self_eq_true sep), hpieces _ hnot]
      simp [String.ofList_append]
    · have hds : ds = [] := by simpa using h
      exact ⟨cs.reverse, by rw [hs, hds]; rfl⟩
  · refine ⟨[], s, fun t ht => ?_, fun h => .inl h⟩
    have hnot : sep ∉ s.toList ++ t.toList := by simp [hsep, ht]
    rw [splitAll, String.toList_append, hpieces _ hnot]
    simp [String.ofList_append]

end Provenance.Text
