import Mathlib.Order.Bounds.Basic
import Provenance.Proofs.Forecast.Estimates
import Provenance.Proofs.Plans

/-!
# The critical path

The critical path of a graph is a longest dependency chain, where a chain is as long as the latencies of its
steps together.  A forecast finds it in one pass: a step finishes its own latency after the latest of the
steps upstream, so its finish is the length of a longest chain that ends in it (`exists_path`,
`along_le_finish`); and the walk back from the latest finish visits such a chain.

Latencies are fractions here, and none is negative.  `Session.critical_path_of_graph` says it all for every
graph that is built.
-/

namespace Provenance

universe u

/-- A dependency chain: steps of a graph, with an edge from each to the next. -/
def Graph.Chain (g : Graph) (c : List Step) : Prop :=
  (∀ s ∈ c, s ∈ g.steps) ∧ c.IsChain fun t s => (t.id, s.id) ∈ g.edges

theorem Graph.chain_concat_iff {g : Graph} {c : List Step} {s : Step} : g.Chain (c ++ [s]) ↔
    g.Chain c ∧ s ∈ g.steps ∧ ∀ t ∈ c.getLast?, (t.id, s.id) ∈ g.edges := by
  unfold Chain
  rw [List.forall_mem_append, List.forall_mem_singleton, List.isChain_append]
  simp
  tauto

namespace CostModel

/-- How long a step takes, without the steps that it waits for. -/
def latency (m : CostModel ℚ) (s : Step) : ℚ := (m.estimate s.task.target).latency

/-- How long steps take one after the other. -/
def along (m : CostModel ℚ) (c : List Step) : ℚ := (c.map m.latency).sum

theorem along_append (m : CostModel ℚ) (c c' : List Step) :
    m.along (c ++ c') = m.along c + m.along c' := by
  unfold along
  rw [List.map_append, List.sum_append]

theorem along_singleton (m : CostModel ℚ) (s : Step) : m.along [s] = m.latency s := by
  simp [along]

theorem along_nonneg {m : CostModel ℚ} {c : List Step} (h : ∀ s ∈ c, 0 ≤ m.latency s) :
    0 ≤ m.along c := by
  refine List.sum_nonneg fun x hx => ?_
  obtain ⟨s, hs, rfl⟩ := List.mem_map.1 hx
  exact h s hs

end CostModel

namespace Forecast

variable {m : CostModel ℚ} {g : Graph} {s : Step} {k : ℕ}

/-! ## Finishes -/

/-- When a step of a graph finishes. -/
def finish (m : CostModel ℚ) (g : Graph) (s : Step) : ℚ := finishIn (done m g) s.id

variable (hg : g.Sound)

include hg

theorem finish_entry (hs : g.steps[k]? = some s) :
    (entry m g (done m g) k s).1.finish = finish m g s := by
  unfold finish finishIn finish?
  rw [find?_done hg hs]
  rfl

/-- The estimate of a step. -/
theorem step?_ofGraph (hs : g.steps[k]? = some s) :
    (ofGraph m g).step? s.id = some (entry m g (done m g) k s).1 := by
  have hfind := find?_done (m := m) hg hs
  unfold step? ofGraph
  rw [List.find?_map]
  exact congrArg (Option.map _) hfind

/-- The estimates stand in the order of the steps. -/
theorem map_steps {β : Type u} {φ : StepForecast ℚ → β} {ψ : Step → β}
    (h : ∀ k s, g.steps[k]? = some s → φ (entry m g (done m g) k s).1 = ψ s) :
    (ofGraph m g).steps.map φ = g.steps.map ψ := by
  have hsettled := settled_done (m := m) hg
  refine List.ext_getElem? fun k => ?_
  have hsteps : (ofGraph m g).steps = (done m g).map (·.1) := rfl
  rw [hsteps, List.getElem?_map, List.getElem?_map, List.getElem?_map]
  cases hs : g.steps[k]? with
  | none =>
    rw [List.getElem?_eq_none_iff, ← hsettled.length, ← List.getElem?_eq_none_iff] at hs
    rw [hs]
    rfl
  | some s =>
    rw [hsettled.entry k s hs]
    exact congrArg some (h k s hs)

/-- **A step waits for the latest of the steps upstream**, and starts at once if there is none. -/
theorem waits (hs : s ∈ g.steps) :
    (g.upstream s.id = [] ∧ slowest (done m g) (g.upstream s.id) = (0, none) ∧
      finish m g s = m.latency s) ∨
    ∃ t ∈ g.steps, t.id ∈ g.upstream s.id ∧
      slowest (done m g) (g.upstream s.id) = (finish m g t, some t.id) ∧
      finish m g s = finish m g t + m.latency s ∧
      ∀ u ∈ g.steps, u.id ∈ g.upstream s.id → finish m g u ≤ finish m g t := by
  obtain ⟨k, hk⟩ := List.mem_iff_getElem?.1 hs
  have hfinish : finish m g s = (slowest (done m g) (g.upstream s.id)).1 + m.latency s :=
    (finish_entry hg hk).symm
  rcases slowest_eq (done m g) (g.upstream s.id) with ⟨hnone, hslowest⟩ | ⟨p, hp, hslowest, hmax⟩
  · refine .inl ⟨hnone, hslowest, ?_⟩
    rw [hfinish, hslowest, zero_add]
  · obtain ⟨t, ht, rfl, -⟩ := (hg.mem_upstream_iff hs).1 hp
    refine .inr ⟨t, ht, hp, hslowest, ?_, fun u _ hu => hmax u.id hu⟩
    rw [hfinish, hslowest]
    rfl

/-! ## Longest chains -/

/-- **The walk back from a step visits a chain that is as long as the step takes to finish**, from a step
without any upstream. -/
theorem exists_path {fuel : ℕ} (hs : g.steps[k]? = some s) (hfuel : k < fuel) : ∃ c,
    g.Chain (c ++ [s]) ∧ m.along (c ++ [s]) = finish m g s ∧
    (∃ first, (c ++ [s]).head? = some first ∧ g.upstream first.id = []) ∧
    (back (done m g) fuel (some s.id)).reverse = (c ++ [s]).map (·.task.name) := by
  induction k using Nat.strong_induction_on generalizing s fuel with
  | _ k ih =>
    obtain ⟨fuel, rfl⟩ := Nat.exists_eq_succ_of_ne_zero (Nat.ne_zero_of_lt hfuel)
    have hmem := List.mem_of_getElem? hs
    have hback : back (done m g) (fuel + 1) (some s.id) = s.task.name ::
        back (done m g) fuel (slowest (done m g) (g.upstream s.id)).2 := by
      rw [back, find?_done hg hs]
      rfl
    rw [hback]
    rcases waits (m := m) hg hmem with ⟨hnone, hslowest, hfinish⟩ |
      ⟨t, ht, hup, hslowest, hfinish, -⟩
    · refine ⟨[], Graph.chain_concat_iff.2 ⟨⟨by simp, .nil⟩, hmem, by simp⟩, ?_, ?_, ?_⟩
      · rw [hfinish, List.nil_append, m.along_singleton]
      · exact ⟨s, rfl, hnone⟩
      · rw [hslowest]
        cases fuel <;> rfl
    · -- the step that it waits for longest stands before it
      obtain ⟨j, hj⟩ := List.mem_iff_getElem?.1 ht
      have hjk := hg.lt_of_readsFrom hj hs ((hg.id_mem_upstream_iff hmem ht).1 hup)
      obtain ⟨c, hchain, hlength, ⟨first, hhead, hfirst⟩, htasks⟩ :=
        ih j hjk hj (Nat.lt_of_lt_of_le hjk (Nat.le_of_lt_succ hfuel))
      refine ⟨c ++ [t], Graph.chain_concat_iff.2 ⟨hchain, hmem, fun u hu => ?_⟩, ?_, ?_, ?_⟩
      · rw [List.getLast?_concat, Option.mem_some_iff] at hu
        rw [← hu]
        exact Graph.mem_edges_iff_mem_upstream.2 hup
      · rw [m.along_append, hlength, m.along_singleton, hfinish]
      · refine ⟨first, ?_, hfirst⟩
        rwa [List.head?_append_of_ne_nil _ (by simp)]
      · rw [hslowest, List.reverse_cons, htasks]
        simp

/-- The walk back starts from the first step among those that finish last. -/
theorem exists_last (hne : g.steps ≠ []) : ∃ before last after, g.steps = before ++ last :: after ∧
    (ofGraph m g).criticalLatency = finish m g last ∧
    (ofGraph m g).criticalPath = (back (done m g) g.steps.length (some last.id)).reverse ∧
    (∀ t ∈ before, finish m g t < finish m g last) ∧ ∀ t ∈ after, finish m g t ≤ finish m g last := by
  have hmap : (ofGraph m g).steps.map (fun e => (e.step, e.finish)) =
      g.steps.map fun s => (s.id, finish m g s) := by
    refine map_steps hg fun k s hs => ?_
    rw [finish_entry hg hs]
    rfl
  rcases last?_eq (ofGraph m g).steps with ⟨hnil, -⟩ | ⟨before, b, after, hsplit, hlast, hbefore, hafter⟩
  · rw [hnil] at hmap
    exact absurd (List.map_eq_nil_iff.1 hmap.symm) hne
  · rw [hsplit, List.map_append, List.map_cons] at hmap
    obtain ⟨l, r, hsteps, hl, hr⟩ := List.map_eq_append_iff.1 hmap.symm
    obtain ⟨last, r, rfl, hb, hr⟩ := List.map_eq_cons_iff.1 hr
    obtain ⟨hid, hfinish⟩ := Prod.mk.inj hb
    -- the finishes on both sides are those of estimates
    have hother : ∀ {ts : List Step} {es : List (StepForecast ℚ)},
        ts.map (fun s => (s.id, finish m g s)) = es.map (fun e => (e.step, e.finish)) →
        ∀ t ∈ ts, ∃ e ∈ es, e.finish = finish m g t := by
      intro ts es heq t ht
      have hmem := List.mem_map_of_mem (f := fun s => (s.id, finish m g s)) ht
      rw [heq] at hmem
      obtain ⟨e, he, hpair⟩ := List.mem_map.1 hmem
      exact ⟨e, he, (Prod.mk.inj hpair).2⟩
    have hlength := (settled_done (m := m) hg).length
    refine ⟨l, last, r, hsteps, ?_, ?_, fun t ht => ?_, fun t ht => ?_⟩
    · rw [hfinish]
      unfold ofGraph at hlast ⊢
      dsimp only at hlast ⊢
      rw [hlast]
      rfl
    · rw [hid, ← hlength]
      unfold ofGraph at hlast ⊢
      dsimp only at hlast ⊢
      rw [hlast]
      rfl
    · obtain ⟨e, he, hpair⟩ := hother hl t ht
      rw [hfinish, ← hpair]
      exact hbefore e he
    · obtain ⟨e, he, hpair⟩ := hother hr t ht
      rw [hfinish, ← hpair]
      exact hafter e he

/-- The estimate of a step has its latency and its finish. -/
theorem exists_step? (hs : s ∈ g.steps) : ∃ e, (ofGraph m g).step? s.id = some e ∧
    e.latency = m.latency s ∧ e.finish = finish m g s := by
  obtain ⟨k, hk⟩ := List.mem_iff_getElem?.1 hs
  exact ⟨_, step?_ofGraph hg hk, rfl, finish_entry hg hk⟩

/-- **A step starts when the latest of the steps upstream has finished**, or at once. -/
theorem exists_start (hs : s ∈ g.steps) : ∃ e start, (ofGraph m g).step? s.id = some e ∧
    e.latency = m.latency s ∧ e.finish = start + m.latency s ∧ (g.upstream s.id = [] → start = 0) ∧
    (g.upstream s.id ≠ [] → IsGreatest
      {x | ∃ p ∈ g.upstream s.id, ∃ e', (ofGraph m g).step? p = some e' ∧ e'.finish = x} start) := by
  obtain ⟨e, he, hlatency, hfinish⟩ := exists_step? (m := m) hg hs
  rcases waits (m := m) hg hs with ⟨hnone, -, heq⟩ | ⟨t, ht, hup, -, heq, hmax⟩
  · refine ⟨e, 0, he, hlatency, ?_, fun _ => rfl, fun hne => absurd hnone hne⟩
    rw [hfinish, heq, zero_add]
  · refine ⟨e, finish m g t, he, hlatency, hfinish.trans heq, fun hnone => ?_, fun _ => ⟨?_, ?_⟩⟩
    · exact absurd (hnone ▸ hup) List.not_mem_nil
    · obtain ⟨e', he', -, hfinish'⟩ := exists_step? (m := m) hg ht
      exact ⟨t.id, hup, e', he', hfinish'⟩
    · rintro _ ⟨p, hp, e', he', rfl⟩
      obtain ⟨u, hu, rfl, -⟩ := (hg.mem_upstream_iff hs).1 hp
      obtain ⟨e'', he'', -, hfinish''⟩ := exists_step? (m := m) hg hu
      obtain rfl := Option.some.inj (he'.symm.trans he'')
      rw [hfinish'']
      exact hmax u hu hp

/-- **The critical path is a chain to the first step that finishes last**, as long as that step takes to
finish. -/
theorem exists_critical (hne : g.steps ≠ []) : ∃ c before last after, g.Chain (c ++ [last]) ∧
    m.along (c ++ [last]) = (ofGraph m g).criticalLatency ∧
    (ofGraph m g).criticalPath = (c ++ [last]).map (·.task.name) ∧
    (∃ first, (c ++ [last]).head? = some first ∧ g.upstream first.id = []) ∧
    g.steps = before ++ last :: after ∧
    (∃ e, (ofGraph m g).step? last.id = some e ∧ e.finish = (ofGraph m g).criticalLatency) ∧
    ∀ t ∈ before, ∃ e, (ofGraph m g).step? t.id = some e ∧ e.finish < (ofGraph m g).criticalLatency := by
  obtain ⟨before, last, after, hsteps, hcritical, hpath, hbefore, -⟩ := exists_last (m := m) hg hne
  have hlast : g.steps[before.length]? = some last := by simp [hsteps]
  have hfuel := (List.getElem?_eq_some_iff.1 hlast).1
  obtain ⟨c, hchain, hlength, hfirst, htasks⟩ := exists_path (m := m) hg hlast hfuel
  obtain ⟨e, he, -, hfinish⟩ := exists_step? (m := m) hg (List.mem_of_getElem? hlast)
  refine ⟨c, before, last, after, hchain, hlength.trans hcritical.symm, hpath.trans htasks, hfirst, hsteps,
    ⟨e, he, hfinish.trans hcritical.symm⟩, fun t ht => ?_⟩
  obtain ⟨e, he, -, hfinish⟩ := exists_step? (m := m) hg (s := t) (by rw [hsteps]; simp [ht])
  refine ⟨e, he, ?_⟩
  rw [hfinish, hcritical]
  exact hbefore t ht

theorem sequentialLatency_eq : (ofGraph m g).sequentialLatency = m.along g.steps := by
  have hmap : (ofGraph m g).steps.map (·.latency) = g.steps.map m.latency :=
    map_steps hg fun k s hs => rfl
  have htotal : (ofGraph m g).sequentialLatency = total ((ofGraph m g).steps.map (·.latency)) := rfl
  rw [htotal, hmap, total_eq_sum]
  rfl

variable (hm : ∀ s ∈ g.steps, 0 ≤ m.latency s)

include hm

theorem finish_nonneg (hs : s ∈ g.steps) : 0 ≤ finish m g s := by
  obtain ⟨k, hk⟩ := List.mem_iff_getElem?.1 hs
  obtain ⟨c, hchain, hlength, -⟩ := exists_path (m := m) hg hk (Nat.lt_succ_self k)
  rw [← hlength]
  exact CostModel.along_nonneg fun t ht => hm t (hchain.1 t ht)

/-- **No chain that ends in a step is longer.** -/
theorem along_le_finish {c : List Step} (hchain : g.Chain (c ++ [s])) :
    m.along (c ++ [s]) ≤ finish m g s := by
  induction c using List.reverseRecOn generalizing s with
  | nil =>
    have hs := hchain.1 s (by simp)
    rw [List.nil_append, m.along_singleton]
    rcases waits (m := m) hg hs with ⟨-, -, hfinish⟩ | ⟨t, ht, -, -, hfinish, -⟩
    · exact hfinish.ge
    · rw [hfinish]
      exact le_add_of_nonneg_left (finish_nonneg hg hm ht)
  | append_singleton c t ih =>
    obtain ⟨hchain, hs, hlast⟩ := Graph.chain_concat_iff.1 hchain
    have ht := hchain.1 t (by simp)
    have hup := Graph.mem_edges_iff_mem_upstream.1 (hlast t (by simp))
    rw [m.along_append, m.along_singleton]
    rcases waits (m := m) hg hs with ⟨hnone, -⟩ | ⟨u, -, -, -, hfinish, hmax⟩
    · exact absurd (hnone ▸ hup) List.not_mem_nil
    · rw [hfinish]
      exact add_le_add_left ((ih hchain).trans (hmax t ht hup)) _

/-- A step has finished when all steps up to it are taken one after the other. -/
theorem finish_le_along {before after : List Step} (hsteps : g.steps = before ++ s :: after) :
    finish m g s ≤ m.along (before ++ [s]) := by
  induction hn : before.length using Nat.strong_induction_on generalizing before s after with
  | _ n ih =>
    have hs : s ∈ g.steps := by rw [hsteps]; simp
    have hbefore : ∀ t ∈ before, 0 ≤ m.latency t := fun t ht => hm t (by rw [hsteps]; simp [ht])
    rw [m.along_append, m.along_singleton]
    rcases waits (m := m) hg hs with ⟨-, -, hfinish⟩ | ⟨t, ht, hup, -, hfinish, -⟩
    · rw [hfinish]
      exact le_add_of_nonneg_left (CostModel.along_nonneg hbefore)
    · have hreads := (hg.id_mem_upstream_iff hs ht).1 hup
      obtain ⟨l, r, rfl⟩ := List.append_of_mem (hg.mem_before_of_readsFrom hsteps ht hreads)
      have hsplit : g.steps = l ++ t :: (r ++ s :: after) := by rw [hsteps]; simp
      have ht := ih l.length (by rw [← hn]; simp) hsplit rfl
      have hr : 0 ≤ m.along r := CostModel.along_nonneg fun u hu => hbefore u (by simp [hu])
      rw [hfinish, ← List.singleton_append, ← List.append_assoc, m.along_append]
      exact add_le_add_left (ht.trans (le_add_of_nonneg_right hr)) _

omit hg hm in
/-- Nothing is critical where there are no steps. -/
theorem critical_of_nil (hnil : g.steps = []) :
    (ofGraph m g).criticalLatency = 0 ∧ (ofGraph m g).criticalPath = [] := by
  unfold ofGraph
  rw [hnil]
  exact ⟨rfl, rfl⟩

/-- **The critical latency is the greatest length of a chain.** -/
theorem isGreatest_criticalLatency :
    IsGreatest {x | ∃ c, g.Chain c ∧ m.along c = x} (ofGraph m g).criticalLatency := by
  by_cases hne : g.steps = []
  · rw [(critical_of_nil hne).1]
    refine ⟨⟨[], ⟨by simp, .nil⟩, rfl⟩, ?_⟩
    rintro _ ⟨c, hchain, rfl⟩
    obtain rfl : c = [] := List.eq_nil_iff_forall_not_mem.2 fun t ht => by
      have hmem := hchain.1 t ht
      rw [hne] at hmem
      exact absurd hmem List.not_mem_nil
    exact le_refl _
  · obtain ⟨before, last, after, hsteps, hcritical, -, hbefore, hafter⟩ := exists_last (m := m) hg hne
    have hlast : g.steps[before.length]? = some last := by simp [hsteps]
    obtain ⟨c, hchain, hlength, -⟩ := exists_path (m := m) hg hlast (Nat.lt_succ_self _)
    have hmax : ∀ t ∈ g.steps, finish m g t ≤ finish m g last := by
      intro t ht
      rw [hsteps] at ht
      rcases List.mem_append.1 ht with ht | ht
      · exact (hbefore t ht).le
      · rcases List.mem_cons.1 ht with rfl | ht
        · exact le_refl _
        · exact hafter t ht
    rw [hcritical]
    refine ⟨⟨c ++ [last], hchain, hlength⟩, ?_⟩
    rintro _ ⟨c, hchain, rfl⟩
    rcases List.eq_nil_or_concat c with rfl | ⟨c, t, rfl⟩
    · exact finish_nonneg hg hm (List.mem_of_getElem? hlast)
    · rw [List.concat_eq_append] at hchain ⊢
      exact (along_le_finish hg hm hchain).trans (hmax t (hchain.1 t (by simp)))

/-- One after the other the steps take at least as long. -/
theorem criticalLatency_le : (ofGraph m g).criticalLatency ≤ m.along g.steps := by
  by_cases hne : g.steps = []
  · rw [(critical_of_nil hne).1, hne]
    exact le_refl _
  · obtain ⟨before, last, after, hsteps, hcritical, -⟩ := exists_last (m := m) hg hne
    have hafter : 0 ≤ m.along after := CostModel.along_nonneg fun t ht => hm t (by rw [hsteps]; simp [ht])
    rw [hcritical, hsteps, ← List.singleton_append, ← List.append_assoc, m.along_append]
    exact (finish_le_along hg hm hsteps).trans (le_add_of_nonneg_right hafter)

end Forecast

/-! ## The critical path of a graph -/

namespace Session

open Forecast

variable {α : Type u} {s : Session α} {terminals : List Asset}

/-- **The critical path is a longest dependency chain.**  For every graph that is built and every cost model
under which no step has a negative latency, in exact fractions:

* a step finishes its latency after the latest of the steps upstream, or after its latency alone;
* the critical latency is the greatest length of a chain, and zero without steps;
* the critical path names the tasks of such a chain, which starts at a step without any upstream and ends at
  the first step that finishes last;
* one after the other the steps take at least as long. -/
theorem critical_path_of_graph (hs : s.Reachable) (hterminals : ∀ a ∈ terminals, s.Offers (.asset a))
    {g : Graph} (hg : s.graph terminals = .ok g) {m : CostModel ℚ}
    (hm : ∀ t ∈ g.steps, 0 ≤ m.latency t) :
    let f := Forecast.ofGraph m g
    (∀ t ∈ g.steps, ∃ e start, f.step? t.id = some e ∧ e.latency = m.latency t ∧
      e.finish = start + m.latency t ∧ (g.upstream t.id = [] → start = 0) ∧
      (g.upstream t.id ≠ [] → IsGreatest
        {x | ∃ p ∈ g.upstream t.id, ∃ e', f.step? p = some e' ∧ e'.finish = x} start)) ∧
    IsGreatest {x | ∃ c, g.Chain c ∧ m.along c = x} f.criticalLatency ∧
    (g.steps = [] → f.criticalLatency = 0 ∧ f.criticalPath = []) ∧
    (g.steps ≠ [] → ∃ c before last after, g.Chain (c ++ [last]) ∧
      m.along (c ++ [last]) = f.criticalLatency ∧
      f.criticalPath = (c ++ [last]).map (·.task.name) ∧
      (∃ first, (c ++ [last]).head? = some first ∧ g.upstream first.id = []) ∧
      g.steps = before ++ last :: after ∧
      (∃ e, f.step? last.id = some e ∧ e.finish = f.criticalLatency) ∧
      ∀ t ∈ before, ∃ e, f.step? t.id = some e ∧ e.finish < f.criticalLatency) ∧
    f.criticalLatency ≤ f.sequentialLatency ∧ f.sequentialLatency = m.along g.steps := by
  obtain ⟨hg, -⟩ := addresses_of_graph hs hterminals hg
  refine ⟨fun t ht => exists_start hg ht, isGreatest_criticalLatency hg hm, critical_of_nil,
    exists_critical hg, ?_, sequentialLatency_eq hg⟩
  rw [sequentialLatency_eq hg]
  exact criticalLatency_le hg hm

/-- Prices and times under which a step on the machine itself takes a minute. -/
def Late.minutes : CostModel ℚ := ⟨0, 0, 1, 0, 90, 60, 30, 600⟩

/-- The two steps behind the report take two minutes, on one chain. -/
theorem critical_path_of_graph_late :
    IsGreatest {x | ∃ c, (Late.graph Late.copy).Chain c ∧ Late.minutes.along c = x} 120 ∧
    (Forecast.ofGraph Late.minutes (Late.graph Late.copy)).criticalPath = ["copy", "copy"] ∧
    120 ≤ (Forecast.ofGraph Late.minutes (Late.graph Late.copy)).sequentialLatency := by
  have hm : ∀ t ∈ (Late.graph Late.copy).steps, 0 ≤ Late.minutes.latency t := by
    intro t ht
    simp only [Late.graph, List.mem_cons, List.not_mem_nil, or_false] at ht
    rcases ht with rfl | rfl <;> decide +kernel
  obtain ⟨-, hgreatest, -, -, hle, -⟩ := critical_path_of_graph (Late.reachable (t := Late.copy) rfl)
    (Late.offers Late.copy) (Late.graph_eq Late.copy) hm
  have hcritical : (Forecast.ofGraph Late.minutes (Late.graph Late.copy)).criticalLatency = 120 := by
    decide +kernel
  rw [hcritical] at hgreatest hle
  exact ⟨hgreatest, by decide +kernel, hle⟩

end Session

end Provenance
