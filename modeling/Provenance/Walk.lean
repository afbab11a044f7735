import Provenance.Assoc

/-! # Walks along finitely many links

A table lists for each key the places that it leads to; what the table does not list leads nowhere.
`reach` collects everything that a worklist leads to, and `cycleFrom` looks for a closed walk.

Both end because a key is expanded once. The measure counts what the keys that are not expanded yet
would still put on the worklist. -/

namespace Provenance.Walk

universe u v

variable {κ : Type u} {β : Type v} [DecidableEq κ]

/-- The entries whose keys a list does not hold. -/
def unseen (table : List (κ × List β)) (seen : List κ) : List (κ × List β) :=
  table.filter fun e => e.1 ∉ seen

theorem unseen_cons (table : List (κ × List β)) (seen : List κ) (k : κ) :
    unseen table (k :: seen) = (unseen table seen).filter fun e => e.1 ≠ k := by
  unfold unseen
  rw [List.filter_filter]
  congr 1
  funext e
  simp [List.mem_cons, not_or]

theorem mem_unseen {table : List (κ × List β)} {seen : List κ} {e : κ × List β} (h : e ∈ table)
    (hnew : e.1 ∉ seen) : e ∈ unseen table seen :=
  List.mem_filter.2 ⟨h, decide_eq_true hnew⟩

/-- The number of places that entries lead to. -/
def places (es : List (κ × List β)) : Nat := (es.flatMap (·.2)).length

omit [DecidableEq κ] in
theorem places_cons (e : κ × List β) (es : List (κ × List β)) :
    places (e :: es) = e.2.length + places es := by
  simp [places, List.flatMap_cons]

omit [DecidableEq κ] in
theorem places_append (es fs : List (κ × List β)) : places (es ++ fs) = places es + places fs := by
  simp [places, List.flatMap_append]

omit [DecidableEq κ] in
theorem places_filter_le (p : κ × List β → Bool) (es : List (κ × List β)) :
    places (es.filter p) ≤ places es := by
  induction es with
  | nil => exact Nat.le_refl _
  | cons e rest ih =>
    rw [places_cons, List.filter_cons]
    split
    · rw [places_cons]
      exact Nat.add_le_add_left ih _
    · exact Nat.le_trans ih (Nat.le_add_left _ _)

/-- Leaving out the entries of a key leaves out the places of each of them. -/
theorem places_filter_ne_add_le {es : List (κ × List β)} {k : κ} {ps : List β} (h : (k, ps) ∈ es) :
    places (es.filter fun e => e.1 ≠ k) + ps.length ≤ places es := by
  obtain ⟨before, after, rfl⟩ := List.append_of_mem h
  have hbefore := places_filter_le (fun e => e.1 ≠ k) before
  have hafter := places_filter_le (fun e => e.1 ≠ k) after
  rw [List.filter_append, List.filter_cons_of_neg (by simp), places_append, places_append, places_cons]
  dsimp only
  omega

/-- How many places the keys outside `seen` lead to. -/
def pending (table : List (κ × List β)) (seen : List κ) : Nat := places (unseen table seen)

theorem pending_cons_le (table : List (κ × List β)) (seen : List κ) (k : κ) :
    pending table (k :: seen) ≤ pending table seen := by
  unfold pending
  rw [unseen_cons]
  exact places_filter_le _ _

/-- Expanding a key takes its places off what is pending. -/
theorem pending_add_length_le {table : List (κ × List β)} {seen : List κ} {k : κ} {ps : List β}
    (hmem : (k, ps) ∈ table) (hnew : k ∉ seen) :
    pending table (k :: seen) + ps.length ≤ pending table seen := by
  unfold pending
  rw [unseen_cons]
  exact places_filter_ne_add_le (mem_unseen hmem hnew)

/-- The number of keys outside a path. -/
def outside (table : List (κ × List β)) (path : List κ) : Nat := (unseen table path).length

theorem outside_cons_lt {table : List (κ × List β)} {path : List κ} {k : κ} {ps : List β}
    (hmem : (k, ps) ∈ table) (hnew : k ∉ path) :
    outside table (k :: path) < outside table path := by
  unfold outside
  rw [unseen_cons, List.length_filter_lt_length_iff_exists]
  exact ⟨(k, ps), mem_unseen hmem hnew, by simp⟩

/-- What the keys of a worklist lead to, together with `seen`. -/
def reach (table : List (κ × List κ)) (seen : List κ) : List κ → List κ
  | [] => seen
  | k :: work =>
    if k ∈ seen then reach table seen work
    else match _h : table.lookup k with
      | none => reach table (k :: seen) work
      | some places => reach table (k :: seen) (places ++ work)
termination_by work => work.length + pending table seen
decreasing_by
  · simp
  · have := pending_cons_le table seen k
    simp; omega
  · have := pending_add_length_le (mem_of_lookup _h) (by assumption)
    simp; omega

/-- Walks depth first from every key of a list. Answers the keys that lead to no closed walk, or the
first closed walk that is met, its first key repeated at its end. `path` holds the keys that are being
expanded, the last one first. -/
def cycleFrom (table : List (κ × List κ)) (path safe : List κ) :
    List κ → Except (List κ) (List κ)
  | [] => .ok safe
  | k :: rest =>
    if k ∈ safe then cycleFrom table path safe rest
    else if k ∈ path then
      .error ((path.takeWhile (· ≠ k) ++ [k]).reverse ++ [k])
    else match _h : table.lookup k with
      | none => cycleFrom table path (k :: safe) rest
      | some places =>
        match cycleFrom table (k :: path) safe places with
        | .error cycle => .error cycle
        | .ok safe => cycleFrom table path (k :: safe) rest
termination_by work => (outside table path, work.length)
decreasing_by
  · apply Prod.Lex.right; simp
  · apply Prod.Lex.right; simp
  · apply Prod.Lex.left
    exact outside_cons_lt (mem_of_lookup _h) (by assumption)
  · apply Prod.Lex.right; simp

end Provenance.Walk
