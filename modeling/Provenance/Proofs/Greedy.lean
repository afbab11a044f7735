import Mathlib.Data.List.Perm.Subperm

/-!
# Greedy orders

Some numbers are *ready*, depending on which are placed.  A greedy order places the least ready number
each time, until none is ready.  There is only one (`Greedy.unique`), whatever computed it, so a rule
that finds a greedy order does not depend on the order in which it looks at anything.

* `Greedy.of_split`: what stands at a place is ready there, and least.
* `Greedy.not_ready_end`: nothing is left ready.
* `Greedy.eq_or_lex`: of all orders of the same numbers in which each number is ready at its place, the
  greedy one is the lexicographically least.
* `Greedy.filter`: numbers that are ready whatever else is placed beside what they wait for keep their
  order when others are placed in between.
-/

namespace Provenance.Order

/-- The least ready number each time, after some are placed. -/
inductive Greedy (ready : List ℕ → ℕ → Prop) : List ℕ → List ℕ → Prop
  | done {placed : List ℕ} : (∀ id, ¬ ready placed id) → Greedy ready placed []
  | next {placed rest : List ℕ} {id : ℕ} : ready placed id →
      (∀ other, ready placed other → id ≤ other) → Greedy ready (placed ++ [id]) rest →
      Greedy ready placed (id :: rest)

namespace Greedy

variable {ready : List ℕ → ℕ → Prop} {placed order : List ℕ}

theorem congr {ready' : List ℕ → ℕ → Prop} (h : ∀ placed id, ready placed id ↔ ready' placed id)
    (hgreedy : Greedy ready placed order) : Greedy ready' placed order := by
  have : ready = ready' := by
    funext placed id
    exact propext (h placed id)
  rwa [← this]

/-- **There is only one greedy order.** -/
theorem unique {order' : List ℕ} (h : Greedy ready placed order) (h' : Greedy ready placed order') :
    order = order' := by
  induction h generalizing order' with
  | done hnone =>
    cases h' with
    | done => rfl
    | next hready => exact absurd hready (hnone _)
  | next hready hleast _ ih =>
    cases h' with
    | done hnone => exact absurd hready (hnone _)
    | next hready' hleast' hrest =>
      obtain rfl := Nat.le_antisymm (hleast _ hready') (hleast' _ hready)
      rw [ih hrest]

theorem of_split (h : Greedy ready placed order) {before after : List ℕ} {id : ℕ}
    (hsplit : order = before ++ id :: after) :
    ready (placed ++ before) id ∧ ∀ other, ready (placed ++ before) other → id ≤ other := by
  induction h generalizing before with
  | done => simp at hsplit
  | next hready hleast _ ih =>
    cases before with
    | nil =>
      obtain ⟨rfl, rfl⟩ := List.cons.inj hsplit
      rw [List.append_nil]
      exact ⟨hready, hleast⟩
    | cons first before =>
      obtain ⟨rfl, hrest⟩ := List.cons.inj hsplit
      have := ih hrest
      rwa [List.append_assoc, List.singleton_append] at this

theorem not_ready_end (h : Greedy ready placed order) (id : ℕ) : ¬ ready (placed ++ order) id := by
  induction h with
  | done hnone => rw [List.append_nil]; exact hnone id
  | next _ _ _ ih => rwa [List.append_assoc, List.singleton_append] at ih

/-- Where only what is not placed is ready, nothing is placed twice. -/
theorem nodup (h : Greedy ready placed order) (hfresh : ∀ placed id, ready placed id → id ∉ placed) :
    order.Nodup ∧ ∀ id ∈ order, id ∉ placed := by
  induction h with
  | done => simp
  | next hready _ _ ih =>
    refine ⟨List.nodup_cons.2 ⟨fun hmem => ih.2 _ hmem (by simp), ih.1⟩, fun id hid => ?_⟩
    rcases List.mem_cons.1 hid with rfl | hid
    · exact hfresh _ _ hready
    · exact fun hmem => ih.2 id hid (List.mem_append_left _ hmem)

/-- **The greedy order is the lexicographically least** of the orders of its numbers in which each
number is ready at its place. -/
theorem eq_or_lex (h : Greedy ready placed order) {other : List ℕ} (hperm : other.Perm order)
    (hready : ∀ before id after, other = before ++ id :: after → ready (placed ++ before) id) :
    order = other ∨ List.Lex (· < ·) order other := by
  induction h generalizing other with
  | done => exact .inl hperm.eq_nil.symm
  | @next placed rest id _ hleast _ ih =>
    cases other with
    | nil => exact absurd hperm.symm.eq_nil (by simp)
    | cons first other =>
      have hfirst : ready placed first := by
        simpa using hready [] first other rfl
      rcases Nat.lt_or_eq_of_le (hleast first hfirst) with hlt | rfl
      · exact .inr (.rel hlt)
      · have hrest : ∀ before x after, other = before ++ x :: after →
            ready (placed ++ [id] ++ before) x := by
          intro before x after hsplit
          have := hready (id :: before) x after (by rw [hsplit, List.cons_append])
          rwa [List.append_assoc, List.singleton_append]
        rcases ih hperm.cons_inv hrest with rfl | hlex
        · exact .inl rfl
        · exact .inr (.cons hlex)

/-- **A greedy order restricts to numbers whose readiness only depends on each other**: what is placed
beside them delays none of them, and lets none of them through early. -/
theorem filter {p : ℕ → Prop} [DecidablePred p] {ready' : List ℕ → ℕ → Prop}
    (hinside : ∀ (placed : List ℕ) id, ready' (placed.filter p) id → p id)
    (hready : ∀ (placed : List ℕ) id, p id → (ready placed id ↔ ready' (placed.filter p) id))
    (h : Greedy ready placed order) : Greedy ready' (placed.filter p) (order.filter p) := by
  induction h with
  | @done placed hnone =>
    refine .done fun id hid => ?_
    exact hnone id ((hready placed id (hinside placed id hid)).2 hid)
  | @next placed rest id hid hleast _ ih =>
    rw [List.filter_append] at ih
    by_cases hp : p id
    · rw [List.filter_cons_of_pos (by simpa using hp)]
      rw [List.filter_cons_of_pos (by simpa using hp), List.filter_nil] at ih
      refine .next ((hready placed id hp).1 hid) (fun other hother => ?_) ih
      exact hleast other ((hready placed other (hinside placed other hother)).2 hother)
    · -- the number is none of them, so for them nothing has been placed
      rw [List.filter_cons_of_neg (by simpa using hp)]
      rwa [List.filter_cons_of_neg (by simpa using hp), List.filter_nil, List.append_nil] at ih

end Greedy

end Provenance.Order
