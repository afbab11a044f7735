import Mathlib.Data.List.Perm.Basic
import Mathlib.Logic.Basic
import Provenance.Index

/-!
# Maps and sets of texts

The entries of a map stand in the order of their keys.  So there is one way only to write a map down, and
maps that answer alike are equal (`Index.eq_of_find?`), and so are sets with the same members
(`KeySet.eq_of_mem_toList`).
-/

namespace Provenance

universe u

/-! ## Maps -/

namespace Index

variable {β : Type u}

/-- An entry is found under its key, because no other has the key. -/
theorem seek_eq_some_iff {k : String} {v : β} : ∀ {es : List (String × β)}, es.Pairwise (·.1 < ·.1) →
    (seek k es = some v ↔ (k, v) ∈ es)
  | [], _ => by simp [seek]
  | (k', v') :: es, hsorted => by
    obtain ⟨hhead, htail⟩ := List.pairwise_cons.1 hsorted
    rw [seek, List.mem_cons, Prod.mk.injEq]
    split
    · rename_i hk
      subst hk
      have hnot : (k', v) ∉ es := fun hmem => String.lt_irrefl k' (hhead _ hmem)
      simp [hnot, eq_comm]
    · rename_i hk
      rw [seek_eq_some_iff htail]
      simp [Ne.symm hk]

theorem find?_eq_some_iff {m : Index β} {k : String} {v : β} :
    m.find? k = some v ↔ (k, v) ∈ m.entries := seek_eq_some_iff m.sorted

/-- **Maps that answer alike are equal.** -/
theorem eq_of_find? {a b : Index β} (h : ∀ k, a.find? k = b.find? k) : a = b := by
  have hmem : ∀ e, e ∈ a.entries ↔ e ∈ b.entries := fun e => by
    rw [← find?_eq_some_iff, ← find?_eq_some_iff, h]
  have hnodup : ∀ m : Index β, m.entries.Nodup := by
    intro m
    refine m.sorted.imp ?_
    rintro e _ hlt rfl
    exact String.lt_irrefl _ hlt
  have hperm := (List.perm_ext_iff_of_nodup (hnodup a) (hnodup b)).2 hmem
  refine ext (hperm.eq_of_pairwise (fun x y _ _ hxy hyx => ?_) a.sorted b.sorted)
  exact absurd (String.lt_trans hxy hyx) (String.lt_irrefl _)

end Index

/-! ## Sets -/

theorem Index.mem_fst_place {β : Type u} {k j : String} {v : β} :
    ∀ {es : List (String × β)}, j ∈ (Index.place k v es).map (·.1) ↔ j = k ∨ j ∈ es.map (·.1)
  | [] => by simp [Index.place]
  | (k', v') :: rest => by
    unfold Index.place
    split
    · simp
    · split
      · rw [List.map_cons, List.mem_cons, Index.mem_fst_place, List.map_cons, List.mem_cons,
          or_left_comm]
      · rename_i h₁ h₂
        obtain rfl : k = k' := Std.Trichotomous.trichotomous (r := (· < ·)) k k' h₁ h₂
        simp

theorem KeySet.mem_toList_foldl_add {j : String} (ks : List String) :
    ∀ s : KeySet, j ∈ (ks.foldl KeySet.add s).toList ↔ j ∈ ks ∨ j ∈ s.toList := by
  induction ks with
  | nil => simp
  | cons k ks ih =>
    intro s
    have hadd : j ∈ (s.add k).toList ↔ j = k ∨ j ∈ s.toList := Index.mem_fst_place
    rw [List.foldl_cons, ih, hadd, List.mem_cons, or_assoc, or_left_comm]

theorem KeySet.mem_toList_ofList {j : String} {ks : List String} :
    j ∈ (KeySet.ofList ks).toList ↔ j ∈ ks := by
  refine (KeySet.mem_toList_foldl_add ks KeySet.empty).trans ⟨fun h => h.resolve_right ?_, .inl⟩
  exact List.not_mem_nil

/-- **Sets with the same members are equal.** -/
theorem KeySet.eq_of_mem_toList {a b : KeySet} (h : ∀ k, k ∈ a.toList ↔ k ∈ b.toList) : a = b := by
  have hfind : ∀ (s : KeySet) (k : String), s.find? k = some () ↔ k ∈ s.toList := fun s k => by
    rw [Index.find?_eq_some_iff, toList, Index.keys, List.mem_map]
    exact ⟨fun hmem => ⟨_, hmem, rfl⟩, fun ⟨e, hmem, hk⟩ => hk ▸ hmem⟩
  refine Index.eq_of_find? fun k => Option.ext fun u => ?_
  rw [hfind a, hfind b, h]

end Provenance
