import Mathlib.Logic.Basic
import Provenance.Join
import Provenance.Proofs.Assoc
import Provenance.Proofs.Index

/-!
# What a draft binds

A draft gives each parameter of its task one asset (`Bound`), whether it comes from a single asset or
from a join.  For a join this rests on the two lists of names that do not fit: both are empty exactly
if the names are the parameters.
-/

namespace Provenance

universe u

/-! ## Names that do not fit -/

theorem Join.mem_without {x : String} {xs ys : List String} :
    x ∈ Join.without xs ys ↔ x ∈ xs ∧ x ∉ ys := by
  unfold Join.without
  rw [KeySet.mem_toList_ofList, List.mem_filter, decide_eq_true_eq]

theorem Join.without_eq_nil_iff {xs ys : List String} :
    Join.without xs ys = [] ↔ ∀ x ∈ xs, x ∈ ys := by
  simp only [List.eq_nil_iff_forall_not_mem, Join.mem_without, not_and, not_not]

/-! ## Bound inputs -/

/-- The inputs stand under the parameters of a task, in their order, and a parameter is given one asset
wherever it stands. -/
structure Bound (t : Task) (inputs : List (String × Asset)) : Prop where
  params : inputs.map (·.1) = t.params
  single : ∀ i ∈ inputs, inputs.lookup i.1 = some i.2

/-- A task of one parameter takes any asset. -/
theorem transform_of_params {a : Asset} {t : Task} {p : String} (h : t.params = [p]) :
    a.transform t = .ok ⟨t, [(p, a)]⟩ := by
  unfold Asset.transform
  rw [h]

theorem bound_of_transform {a : Asset} {t : Task} {d : Draft} (h : a.transform t = .ok d) :
    Bound d.task d.inputs ∧ ∀ i ∈ d.inputs, i.2 = a := by
  unfold Asset.transform at h
  split at h
  · rename_i p hp
    obtain rfl := Except.ok.inj h
    exact ⟨⟨hp.symm, by simp⟩, by simp⟩
  · exact absurd h (by simp)

/-- The inputs that a join gives to parameters which all are names of sources. -/
theorem map_fst_filterMap_lookup {sources : List (String × Asset)} :
    ∀ {params : List String}, (∀ p ∈ params, p ∈ sources.map (·.1)) →
      (params.filterMap fun p => (sources.lookup p).map (p, ·)).map (·.1) = params
  | [], _ => rfl
  | p :: params, h => by
    obtain ⟨hp, hparams⟩ := List.forall_mem_cons.1 h
    obtain ⟨a, ha⟩ := exists_lookup_of_mem_keys hp
    simp only [List.filterMap_cons, ha, Option.map_some, List.map_cons]
    rw [map_fst_filterMap_lookup hparams]

theorem lookup_filterMap_lookup {sources : List (String × Asset)} {p : String} {a : Asset}
    (h : sources.lookup p = some a) :
    ∀ {params : List String}, p ∈ params →
      (params.filterMap fun p => (sources.lookup p).map (p, ·)).lookup p = some a
  | [], hp => by simp at hp
  | q :: params, hp => by
    by_cases hq : p = q
    · subst hq
      simp only [List.filterMap_cons, h, Option.map_some]
      exact List.lookup_cons_self
    · have ih := lookup_filterMap_lookup h ((List.mem_cons.1 hp).resolve_left hq)
      cases hsource : sources.lookup q with
      | none => simpa only [List.filterMap_cons, hsource, Option.map_none] using ih
      | some b =>
        simp only [List.filterMap_cons, hsource, Option.map_some]
        rw [lookup_cons_of_ne b _ hq, ih]

theorem Join.bound_of_transform {j : Join} {t : Task} {d : Draft} (h : j.transform t = .ok d) :
    Bound d.task d.inputs ∧ ∀ i ∈ d.inputs, i ∈ j.sources := by
  unfold Join.transform at h
  dsimp only at h
  split at h
  · rename_i hempty
    obtain rfl := Except.ok.inj h
    rw [Bool.and_eq_true, List.isEmpty_iff, List.isEmpty_iff] at hempty
    have hparams : ∀ p ∈ t.params, p ∈ j.sources.map (·.1) := Join.without_eq_nil_iff.1 hempty.2
    have hsource : ∀ i ∈ t.params.filterMap fun p => (j.sources.lookup p).map (p, ·),
        i.1 ∈ t.params ∧ j.sources.lookup i.1 = some i.2 := by
      intro i hi
      obtain ⟨p, hp, hlookup⟩ := List.mem_filterMap.1 hi
      obtain ⟨a, ha, rfl⟩ := Option.map_eq_some_iff.1 hlookup
      exact ⟨hp, ha⟩
    exact ⟨⟨map_fst_filterMap_lookup hparams, fun i hi =>
      lookup_filterMap_lookup (hsource i hi).2 (hsource i hi).1⟩,
      fun i hi => mem_of_lookup (hsource i hi).2⟩
  · exact absurd h (by simp)

end Provenance
