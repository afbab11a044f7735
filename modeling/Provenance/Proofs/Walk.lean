import Mathlib.Data.List.Chain
import Mathlib.Logic.Relation
import Provenance.Walk

/-!
# What walks find

A table *leads* from a key to the places that it lists for the key.  `reach` collects exactly what a
worklist leads to, in any number of steps (`mem_reach_nil_iff`).

`cycleFrom` either answers keys that lead to no closed walk, or shows a closed walk.

* `cycleFrom_ok`: what is answered as safe is accessible, so no infinite walk starts there, and every
  key of the worklist is safe.  The path that is being expanded does not matter for this.
* `cycleFrom_error`: what is reported is a closed walk among the keys that the worklist leads to.  Here
  the path matters: it is a walk to the keys of the worklist.
-/

namespace Provenance.Walk

universe u

variable {κ : Type u} [DecidableEq κ] {table : List (κ × List κ)}

/-- The table lists the second key for the first one. -/
def Leads (table : List (κ × List κ)) (a b : κ) : Prop :=
  ∃ places, table.lookup a = some places ∧ b ∈ places

theorem Leads.mem_places {a b : κ} {places : List κ} (h : Leads table a b)
    (ha : table.lookup a = some places) : b ∈ places := by
  obtain ⟨places', ha', hb⟩ := h
  rw [ha] at ha'
  rwa [Option.some.inj ha']

theorem not_leads_of_lookup_none {a b : κ} (h : table.lookup a = none) : ¬ Leads table a b := by
  rintro ⟨places, ha, -⟩
  rw [h] at ha
  exact absurd ha (by simp)

/-! ## Collecting -/

theorem subset_reach (seen work : List κ) :
    (∀ x ∈ seen, x ∈ reach table seen work) ∧ ∀ x ∈ work, x ∈ reach table seen work := by
  fun_induction reach table seen work with
  | case1 seen => simp
  | case2 seen k work hk ih =>
    refine ⟨ih.1, fun x hx => ?_⟩
    rcases List.mem_cons.1 hx with rfl | hx
    · exact ih.1 x hk
    · exact ih.2 x hx
  | case3 seen k work hk hnone ih =>
    refine ⟨fun x hx => ih.1 x (List.mem_cons_of_mem _ hx), fun x hx => ?_⟩
    rcases List.mem_cons.1 hx with rfl | hx
    · exact ih.1 x List.mem_cons_self
    · exact ih.2 x hx
  | case4 seen k work hk places hsome ih =>
    refine ⟨fun x hx => ih.1 x (List.mem_cons_of_mem _ hx), fun x hx => ?_⟩
    rcases List.mem_cons.1 hx with rfl | hx
    · exact ih.1 x List.mem_cons_self
    · exact ih.2 x (List.mem_append_right _ hx)

/-- Nothing is collected that was not seen and that the worklist does not lead to. -/
theorem mem_reach {seen work : List κ} {x : κ} (h : x ∈ reach table seen work) :
    x ∈ seen ∨ ∃ k ∈ work, Relation.ReflTransGen (Leads table) k x := by
  fun_induction reach table seen work with
  | case1 seen => exact .inl h
  | case2 seen k work hk ih =>
    rcases ih h with hx | ⟨j, hj, hjx⟩
    · exact .inl hx
    · exact .inr ⟨j, List.mem_cons_of_mem _ hj, hjx⟩
  | case3 seen k work hk hnone ih =>
    rcases ih h with hx | ⟨j, hj, hjx⟩
    · rcases List.mem_cons.1 hx with rfl | hx
      · exact .inr ⟨x, List.mem_cons_self, .refl⟩
      · exact .inl hx
    · exact .inr ⟨j, List.mem_cons_of_mem _ hj, hjx⟩
  | case4 seen k work hk places hsome ih =>
    rcases ih h with hx | ⟨j, hj, hjx⟩
    · rcases List.mem_cons.1 hx with rfl | hx
      · exact .inr ⟨x, List.mem_cons_self, .refl⟩
      · exact .inl hx
    · rcases List.mem_append.1 hj with hj | hj
      · exact .inr ⟨k, List.mem_cons_self, .head ⟨places, hsome, hj⟩ hjx⟩
      · exact .inr ⟨j, List.mem_cons_of_mem _ hj, hjx⟩

/-- If what was seen leads only to what was seen or is on the worklist, then what is collected leads
only to what is collected. -/
theorem reach_closed {seen work : List κ}
    (hclosed : ∀ x ∈ seen, ∀ y, Leads table x y → y ∈ seen ∨ y ∈ work) :
    ∀ x ∈ reach table seen work, ∀ y, Leads table x y → y ∈ reach table seen work := by
  fun_induction reach table seen work with
  | case1 seen => exact fun x hx y hy => (hclosed x hx y hy).resolve_right (by simp)
  | case2 seen k work hk ih =>
    refine ih fun x hx y hy => ?_
    rcases hclosed x hx y hy with h | h
    · exact .inl h
    · rcases List.mem_cons.1 h with rfl | h
      · exact .inl hk
      · exact .inr h
  | case3 seen k work hk hnone ih =>
    refine ih fun x hx y hy => ?_
    rcases List.mem_cons.1 hx with rfl | hx
    · exact absurd hy (not_leads_of_lookup_none hnone)
    · rcases hclosed x hx y hy with h | h
      · exact .inl (List.mem_cons_of_mem _ h)
      · rcases List.mem_cons.1 h with rfl | h
        · exact .inl List.mem_cons_self
        · exact .inr h
  | case4 seen k work hk places hsome ih =>
    refine ih fun x hx y hy => ?_
    rcases List.mem_cons.1 hx with rfl | hx
    · exact .inr (List.mem_append_left _ (hy.mem_places hsome))
    · rcases hclosed x hx y hy with h | h
      · exact .inl (List.mem_cons_of_mem _ h)
      · rcases List.mem_cons.1 h with rfl | h
        · exact .inl List.mem_cons_self
        · exact .inr (List.mem_append_right _ h)

/-- **What is collected is what the worklist leads to.** -/
theorem mem_reach_nil_iff {work : List κ} {x : κ} :
    x ∈ reach table [] work ↔ ∃ k ∈ work, Relation.ReflTransGen (Leads table) k x := by
  refine ⟨fun h => (mem_reach h).resolve_left (by simp), ?_⟩
  rintro ⟨k, hk, hkx⟩
  induction hkx with
  | refl => exact (subset_reach [] work).2 k hk
  | tail _ hstep ih => exact reach_closed (by simp) _ ih _ hstep

/-! ## Looking for a closed walk -/

/-- A walk of at least one step that ends where it starts. -/
structure Closed (table : List (κ × List κ)) (walk : List κ) : Prop where
  two_le : 2 ≤ walk.length
  ends : walk.head? = walk.getLast?
  chain : walk.IsChain (Leads table)

omit [DecidableEq κ] in
/-- Two keys of a walk, one after the other, are joined by steps of it. -/
theorem transGen_of_isChain {R : κ → κ → Prop} {a b : κ} :
    ∀ {l : List κ}, (a :: (l ++ [b])).IsChain R → Relation.TransGen R a b
  | [], h => .single (List.isChain_cons_cons.1 h).1
  | c :: l, h => by
    rw [List.cons_append, List.isChain_cons_cons] at h
    exact .head h.1 (transGen_of_isChain h.2)

omit [DecidableEq κ] in
/-- What holds of the first key of a walk, and is handed on by its steps, holds of every key. -/
theorem forall_mem_of_isChain {R : κ → κ → Prop} {P : κ → Prop} (hP : ∀ x y, P x → R x y → P y) :
    ∀ {l : List κ}, l.IsChain R → (∀ x ∈ l.head?, P x) → ∀ x ∈ l, P x
  | [], _, _ => by simp
  | [a], _, hhead => by simpa using hhead
  | a :: b :: l, h, hhead => by
    obtain ⟨hab, hrest⟩ := List.isChain_cons_cons.1 h
    have ha : P a := hhead a rfl
    refine List.forall_mem_cons.2 ⟨ha, forall_mem_of_isChain hP hrest fun x hx => ?_⟩
    obtain rfl : b = x := by simpa using hx
    exact hP a b ha hab

/-- A closed walk takes its first key back to itself. -/
theorem Closed.transGen_head {walk : List κ} {k : κ} (h : Closed table walk)
    (hk : k ∈ walk.head?) : Relation.TransGen (Leads table) k k := by
  match walk, h with
  | [], h => exact absurd h.two_le (by simp)
  | [a], h => exact absurd h.two_le (by simp)
  | a :: b :: l, h =>
    obtain rfl : a = k := by simpa using hk
    obtain ⟨init, last, hl⟩ := List.eq_nil_or_concat (b :: l) |>.resolve_left (by simp)
    have hends := h.ends
    rw [hl, List.concat_eq_append, List.head?_cons, ← List.cons_append, List.getLast?_append,
      List.getLast?_singleton] at hends
    obtain rfl : a = last := by simpa using hends
    have hchain := h.chain
    rw [hl, List.concat_eq_append] at hchain
    exact transGen_of_isChain hchain

/-- What is answered as safe can start no infinite walk, and holds what was safe before and every key
of the worklist. -/
theorem cycleFrom_ok {path safe work safe' : List κ}
    (h : cycleFrom table path safe work = .ok safe')
    (hsafe : ∀ x ∈ safe, Acc (fun y x => Leads table x y) x) :
    (∀ x ∈ safe', Acc (fun y x => Leads table x y) x) ∧ (∀ x ∈ safe, x ∈ safe') ∧
      ∀ x ∈ work, x ∈ safe' := by
  fun_induction cycleFrom table path safe work generalizing safe' with
  | case1 path safe =>
    obtain rfl := Except.ok.inj h
    exact ⟨hsafe, fun _ hx => hx, by simp⟩
  | case2 path safe k rest hk ih =>
    obtain ⟨hacc, hsub, hrest⟩ := ih h hsafe
    exact ⟨hacc, hsub, List.forall_mem_cons.2 ⟨hsub k hk, hrest⟩⟩
  | case3 path safe k rest hk hpath => exact absurd h (by simp)
  | case4 path safe k rest hk hpath hnone ih =>
    have hk' : Acc (fun y x => Leads table x y) k :=
      ⟨k, fun y hy => absurd hy (not_leads_of_lookup_none hnone)⟩
    obtain ⟨hacc, hsub, hrest⟩ := ih h (List.forall_mem_cons.2 ⟨hk', hsafe⟩)
    exact ⟨hacc, fun x hx => hsub x (List.mem_cons_of_mem _ hx),
      List.forall_mem_cons.2 ⟨hsub k List.mem_cons_self, hrest⟩⟩
  | case5 path safe k rest hk hpath places hsome cycle hcycle ih => exact absurd h (by simp)
  | case6 path safe k rest hk hpath places hsome safe₁ hok ih₁ ih₂ =>
    obtain ⟨hacc₁, hsub₁, hplaces⟩ := ih₁ hok hsafe
    have hk' : Acc (fun y x => Leads table x y) k :=
      ⟨k, fun y hy => hacc₁ y (hplaces y (hy.mem_places hsome))⟩
    obtain ⟨hacc, hsub, hrest⟩ := ih₂ h (List.forall_mem_cons.2 ⟨hk', hacc₁⟩)
    exact ⟨hacc, fun x hx => hsub x (List.mem_cons_of_mem _ (hsub₁ x hx)),
      List.forall_mem_cons.2 ⟨hsub k List.mem_cons_self, hrest⟩⟩

/-- The part of a path back to a key, turned round and closed by that key. -/
theorem closed_of_path {path : List κ} {k : κ}
    (hpath : path.IsChain fun y x => Leads table x y) (hk : k ∈ path)
    (hlead : ∀ p ∈ path.head?, Leads table p k) :
    Closed table ((path.takeWhile (· ≠ k) ++ [k]).reverse ++ [k]) := by
  obtain ⟨front, back, rfl, hfresh⟩ := List.eq_append_cons_of_mem hk
  have hfront : (front ++ k :: back).takeWhile (· ≠ k) = front := by
    have hne : ∀ x ∈ front, decide (x ≠ k) = true := by
      intro x hx
      refine decide_eq_true ?_
      rintro rfl
      exact hfresh hx
    rw [List.takeWhile_append_of_pos hne, List.takeWhile_cons_of_neg (by simp), List.append_nil]
  rw [hfront, List.reverse_append, List.reverse_singleton, List.singleton_append]
  have hback : (front ++ [k]).IsChain fun y x => Leads table x y :=
    hpath.prefix ⟨back, by rw [List.append_assoc, List.singleton_append]⟩
  have hturned : (k :: front.reverse).IsChain (Leads table) := by
    simpa using List.isChain_reverse.2 hback
  refine ⟨by simp, ?_, hturned.append (.singleton k) fun x hx y hy => ?_⟩
  · rw [List.cons_append, List.head?_cons, ← List.cons_append, List.getLast?_append]
    simp
  · obtain rfl : k = y := by simpa using hy
    refine hlead x ?_
    cases front with
    | nil => simpa using hx
    | cons a front =>
      rw [List.reverse_cons, ← List.cons_append, List.getLast?_append] at hx
      simpa using hx

/-- What is reported is a closed walk.  It starts at a key of any kind that the keys of the worklist are
of and that leads only to keys of the same kind. -/
theorem cycleFrom_error {path safe work cycle : List κ} {P : κ → Prop}
    (h : cycleFrom table path safe work = .error cycle)
    (hP : ∀ x y, P x → Leads table x y → P y) (hwork : ∀ x ∈ work, P x)
    (hpath : path.IsChain fun y x => Leads table x y)
    (hlead : ∀ p ∈ path.head?, ∀ k ∈ work, Leads table p k) :
    Closed table cycle ∧ ∃ k ∈ cycle.head?, P k := by
  fun_induction cycleFrom table path safe work with
  | case1 path safe => exact absurd h (by simp)
  | case2 path safe k rest hk ih =>
    exact ih h (fun x hx => hwork x (List.mem_cons_of_mem _ hx)) hpath
      fun p hp x hx => hlead p hp x (List.mem_cons_of_mem _ hx)
  | case3 path safe k rest hk hmem =>
    obtain rfl := Except.error.inj h
    refine ⟨closed_of_path hpath hmem fun p hp => hlead p hp k List.mem_cons_self, k, ?_,
      hwork k List.mem_cons_self⟩
    rw [List.reverse_append, List.reverse_singleton, List.singleton_append, List.cons_append]
    exact rfl
  | case4 path safe k rest hk hmem hnone ih =>
    exact ih h (fun x hx => hwork x (List.mem_cons_of_mem _ hx)) hpath
      fun p hp x hx => hlead p hp x (List.mem_cons_of_mem _ hx)
  | case5 path safe k rest hk hmem places hsome cycle' hcycle ih =>
    obtain rfl := Except.error.inj h
    have hk' := hwork k List.mem_cons_self
    refine ih hcycle (fun x hx => hP k x hk' ⟨places, hsome, hx⟩) ?_ ?_
    · exact hpath.cons fun y hy => hlead y hy k List.mem_cons_self
    · intro p hp x hx
      obtain rfl : k = p := by simpa using hp
      exact ⟨places, hsome, hx⟩
  | case6 path safe k rest hk hmem places hsome safe₁ hok ih₁ ih₂ =>
    exact ih₂ h (fun x hx => hwork x (List.mem_cons_of_mem _ hx)) hpath
      fun p hp x hx => hlead p hp x (List.mem_cons_of_mem _ hx)

/-- A key that no infinite walk starts from is on no closed walk. -/
theorem not_transGen_self_of_acc {a : κ} (h : Acc (fun y x => Leads table x y) a) :
    ¬ Relation.TransGen (Leads table) a a := by
  intro hcycle
  have hacc : Acc (Relation.TransGen fun y x => Leads table x y) a := h.transGen
  have hswap : Relation.TransGen (fun y x => Leads table x y) a a := Relation.transGen_swap.2 hcycle
  clear h hcycle
  induction hacc with
  | intro a _ ih => exact ih a hswap hswap

end Provenance.Walk
