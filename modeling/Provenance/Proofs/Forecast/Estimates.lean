import Mathlib.Algebra.BigOperators.Group.List.Basic
import Mathlib.Algebra.Order.Ring.Rat
import Provenance.Forecast.Basic
import Provenance.Proofs.Graph.Sound

/-!
# What a forecast estimates

A forecast goes through the steps once and never looks back at an estimate.  So an estimate can be read off
the complete list as well as off the list at its time: the list of all estimates solves an equation
(`settled_done`), in which each estimate is made from the finishes of the steps upstream (`entry`).  From
there on nothing is about runs any more.

What is chosen among finishes is said apart: the latest finish of the steps that a step waits for
(`slowest_eq`), and the step that finishes last (`last?_eq`).
-/

namespace Provenance

universe u

namespace Forecast

/-! ## All estimates at once -/

/-- Later estimates do not change a finish that is known. -/
theorem finish?_append {ν : Type u} {d d' : Progress ν} {id : StepId} (hid : id ∈ d.map (·.1.step)) :
    finish? (d ++ d') id = finish? d id := by
  have hfound : (d.find? (·.1.step == id)).isSome := by
    obtain ⟨e, he, hkey⟩ := List.mem_map.1 hid
    exact List.find?_isSome.2 ⟨e, he, beq_iff_eq.2 hkey⟩
  unfold finish?
  rw [List.find?_append, Option.or_of_isSome hfound]

section

variable {ν : Type u} [NatCast ν] [Add ν] [Mul ν] [Div ν] [LT ν] [DecidableLT ν]

/-- The estimate of a step, with the step that it waits for longest, from other estimates. -/
def entry (m : CostModel ν) (g : Graph) (done : Progress ν) (order : ℕ) (s : Step) :
    StepForecast ν × Option StepId :=
  let e := m.estimate s.task.target
  let (start, after) := slowest done (g.upstream s.id)
  (⟨s.id, order, s.task.name, s.output.title, s.task.target.name, s.kind, e.runtime, e.cost, e.latency,
    start + e.latency⟩, after)

/-- All estimates of a graph. -/
def done (m : CostModel ν) (g : Graph) : Progress ν := g.steps.foldl (advance m g) []

variable {m : CostModel ν} {g : Graph} {d d' : Progress ν} {s : Step}

/-- Only the finishes of the steps upstream enter an estimate. -/
theorem entry_congr (h : ∀ id ∈ g.upstream s.id, finish? d id = finish? d' id) (k : ℕ) :
    entry m g d k s = entry m g d' k s := by
  have hslowest : slowest d (g.upstream s.id) = slowest d' (g.upstream s.id) := by
    unfold slowest
    refine List.foldl_ext _ _ _ fun acc id hid => ?_
    rw [h id hid]
  unfold entry
  rw [hslowest]

/-- The estimates of some steps, each made from the others. -/
structure Settled (m : CostModel ν) (g : Graph) (steps : List Step) (d : Progress ν) : Prop where
  length : d.length = steps.length
  entry : ∀ k s, steps[k]? = some s → d[k]? = some (entry m g d k s)

theorem Settled.ids {steps : List Step} (h : Settled m g steps d) :
    d.map (·.1.step) = steps.map (·.id) := by
  refine List.ext_getElem? fun k => ?_
  rw [List.getElem?_map, List.getElem?_map]
  cases hs : steps[k]? with
  | none =>
    rw [List.getElem?_eq_none_iff, ← h.length, ← List.getElem?_eq_none_iff] at hs
    rw [hs]
    rfl
  | some s =>
    rw [h.entry k s hs]
    rfl

/-- **A step of a run**: the estimate of the next step. -/
theorem Settled.advance (hg : g.Sound) {before after : List Step} (hsteps : g.steps = before ++ s :: after)
    (h : Settled m g before d) : Settled m g (before ++ [s]) (advance m g d s) := by
  have hdone : ∀ t ∈ before ++ [s], ∀ id ∈ g.upstream t.id, id ∈ d.map (·.1.step) := by
    intro t ht id hid
    rw [h.ids]
    rcases List.mem_append.1 ht with ht | ht
    · obtain ⟨l, r, rfl⟩ := List.append_of_mem ht
      rw [List.append_assoc, List.cons_append] at hsteps
      obtain ⟨u, hu, rfl⟩ := hg.exists_of_mem_upstream hsteps hid
      exact List.mem_map_of_mem (List.mem_append_left _ hu)
    · obtain rfl := List.mem_singleton.1 ht
      obtain ⟨u, hu, rfl⟩ := hg.exists_of_mem_upstream hsteps hid
      exact List.mem_map_of_mem hu
  -- so the new estimate does not change what the others are made from
  have hstable : ∀ t ∈ before ++ [s], ∀ k, Forecast.entry m g (Forecast.advance m g d s) k t =
      Forecast.entry m g d k t :=
    fun t ht k => entry_congr (fun id hid => finish?_append (hdone t ht id hid)) k
  have hadvance : Forecast.advance m g d s = d ++ [Forecast.entry m g d d.length s] := rfl
  refine ⟨by rw [hadvance, List.length_append, List.length_append, h.length]; rfl, fun k t ht => ?_⟩
  rw [hstable t (List.mem_of_getElem? ht), hadvance]
  by_cases hk : k < before.length
  · rw [List.getElem?_append_left hk] at ht
    rw [List.getElem?_append_left (h.length.symm ▸ hk)]
    exact h.entry k t ht
  · have hbound := (List.getElem?_eq_some_iff.1 ht).1
    rw [List.length_append, List.length_singleton] at hbound
    obtain rfl : k = before.length := Nat.le_antisymm (Nat.le_of_lt_succ hbound) (Nat.le_of_not_lt hk)
    rw [List.getElem?_concat_length] at ht
    obtain rfl := Option.some.inj ht
    rw [← h.length, List.getElem?_concat_length]

/-- **A whole run.** -/
theorem settled_done (hg : g.Sound) : Settled m g g.steps (done m g) := by
  have hrun : ∀ before after, g.steps = before ++ after →
      Settled m g before (before.foldl (Forecast.advance m g) []) := by
    intro before
    induction before using List.reverseRecOn with
    | nil => exact fun _ _ => ⟨rfl, fun k s hs => absurd hs (by simp)⟩
    | append_singleton before s ih =>
      intro after hsteps
      rw [List.append_assoc, List.singleton_append] at hsteps
      rw [List.foldl_concat]
      exact (ih (s :: after) hsteps).advance hg hsteps
  exact hrun g.steps [] (List.append_nil _).symm

/-- The estimate of a step is found by the number of the step. -/
theorem find?_done (hg : g.Sound) {k : ℕ} (hs : g.steps[k]? = some s) :
    (done m g).find? (·.1.step == s.id) = some (entry m g (done m g) k s) := by
  have hsettled := settled_done (m := m) hg
  have hids : ((done m g).map (·.1.step)).Nodup := hsettled.ids ▸ hg.ordered.ids
  exact (Graph.find?_eq_some_iff hids (k := s.id)).2
    ⟨List.mem_of_getElem? (hsettled.entry k s hs), rfl⟩

end

/-! ## Choosing among finishes -/

section

variable {ν : Type u}

theorem slowest_concat [NatCast ν] [LT ν] [DecidableLT ν] (d : Progress ν) (ids : List StepId)
    (id : StepId) : slowest d (ids ++ [id]) =
      if (slowest d ids).2.isNone ∨ (finish? d id).getD ((0 : ℕ) : ν) > (slowest d ids).1 then
        ((finish? d id).getD ((0 : ℕ) : ν), some id)
      else slowest d ids := by
  unfold slowest
  rw [List.foldl_concat]

theorem last?_concat [LE ν] [DecidableLE ν] (steps : List (StepForecast ν)) (s : StepForecast ν) :
    last? (steps ++ [s]) = (last? steps).elim (some s) fun b =>
      if b.finish ≥ s.finish then some b else some s := by
  unfold last?
  rw [List.foldl_concat]
  split <;> rename_i heq <;> rw [heq] <;> rfl

end

/-- When a step finishes, or zero for a step without an estimate. -/
def finishIn (d : Progress ℚ) (id : StepId) : ℚ := (finish? d id).getD ((0 : ℕ) : ℚ)

/-- A step waits for one of the latest steps that it has to wait for, and from the start if there is none. -/
theorem slowest_eq (d : Progress ℚ) (ids : List StepId) :
    (ids = [] ∧ slowest d ids = (0, none)) ∨ ∃ p ∈ ids, slowest d ids = (finishIn d p, some p) ∧
      ∀ q ∈ ids, finishIn d q ≤ finishIn d p := by
  induction ids using List.reverseRecOn with
  | nil => exact .inl ⟨rfl, by simp [slowest]⟩
  | append_singleton ids id ih =>
    have hnext := slowest_concat d ids id
    rw [← finishIn] at hnext
    refine .inr ?_
    rcases ih with ⟨rfl, hnone⟩ | ⟨p, hp, hsome, hmax⟩
    · refine ⟨id, List.mem_singleton_self _, ?_, ?_⟩
      · rw [hnext, hnone]
        rfl
      · intro q hq
        rw [List.mem_singleton.1 hq]
    · rw [hnext, hsome]
      by_cases hlater : finishIn d p < finishIn d id
      · refine ⟨id, List.mem_append_right _ (List.mem_singleton_self _), if_pos (.inr hlater), ?_⟩
        intro q hq
        rcases List.mem_append.1 hq with hq | hq
        · exact (hmax q hq).trans hlater.le
        · rw [List.mem_singleton.1 hq]
      · refine ⟨p, List.mem_append_left _ hp, if_neg ?_, ?_⟩
        · simp [hlater]
        · intro q hq
          rcases List.mem_append.1 hq with hq | hq
          · exact hmax q hq
          · rw [List.mem_singleton.1 hq]
            exact le_of_not_gt hlater

/-- The first of the estimates that finish last. -/
theorem last?_eq (steps : List (StepForecast ℚ)) : (steps = [] ∧ last? steps = none) ∨
    ∃ before b after, steps = before ++ b :: after ∧ last? steps = some b ∧
      (∀ s ∈ before, s.finish < b.finish) ∧ ∀ s ∈ after, s.finish ≤ b.finish := by
  induction steps using List.reverseRecOn with
  | nil => exact .inl ⟨rfl, rfl⟩
  | append_singleton steps s ih =>
    refine .inr ?_
    rw [last?_concat]
    rcases ih with ⟨rfl, hnone⟩ | ⟨before, b, after, rfl, hsome, hbefore, hafter⟩
    · rw [hnone]
      exact ⟨[], s, [], rfl, rfl, by simp, by simp⟩
    · rw [hsome]
      by_cases hle : s.finish ≤ b.finish
      · refine ⟨before, b, after ++ [s], by simp, if_pos hle, hbefore, fun t ht => ?_⟩
        rcases List.mem_append.1 ht with ht | ht
        · exact hafter t ht
        · rwa [List.mem_singleton.1 ht]
      · have hlt := lt_of_not_ge hle
        refine ⟨before ++ b :: after, s, [], rfl, if_neg hle, fun t ht => ?_, by simp⟩
        rcases List.mem_append.1 ht with ht | ht
        · exact (hbefore t ht).trans hlt
        · rcases List.mem_cons.1 ht with rfl | ht
          · exact hlt
          · exact (hafter t ht).trans_lt hlt

/-- Fractions are summed up exactly. -/
theorem total_eq_sum (xs : List ℚ) : total xs = xs.sum := by
  unfold total
  rw [Nat.cast_zero, neg_zero, List.sum_eq_foldl]

end Forecast

end Provenance
