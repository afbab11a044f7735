import Mathlib.Data.List.Nodup
import Provenance.Assoc

/-!
# Finite maps as lists of pairs: what reading and writing do

Where no key stands twice, reading a key is membership of a pair, so the order of the pairs does not
matter.  Writing keeps the keys apart.

* `lookup_eq_some_iff_mem`, `lookup_of_perm`: reading, where keys are apart.
* `map_lookup_keys`: the pairs from the keys.
* `lookup_map_snd`, `lookup_filter_fst`: reading through a map of the values and a choice of keys.
* `map_fst_assign`, `nodup_keys_assign`, `mem_assign`: the keys and the pairs after writing.
* `lookup_assign`, `lookup_append_pair`, `lookup_unassign`: reading after writing a key, after putting one
  at the end and after taking one out.
-/

namespace Provenance

universe u v w

variable {α : Type u} {β : Type v} {γ : Type w} [DecidableEq α]

/-! ## Reading -/

theorem mem_keys_of_lookup {k : α} {b : β} {m : List (α × β)} (h : m.lookup k = some b) :
    k ∈ m.map (·.1) :=
  List.mem_map.2 ⟨(k, b), mem_of_lookup h, rfl⟩

/-- A key of the map has a value. -/
theorem exists_lookup_of_mem_keys {k : α} {m : List (α × β)} (h : k ∈ m.map (·.1)) :
    ∃ b, m.lookup k = some b := by
  induction m with
  | nil => simp at h
  | cons e rest ih =>
    obtain ⟨k', b'⟩ := e
    by_cases hk : k = k'
    · subst hk
      exact ⟨b', List.lookup_cons_self⟩
    · rw [List.map_cons, List.mem_cons] at h
      rw [lookup_cons_of_ne b' rest hk]
      exact ih (h.resolve_left hk)

/-- Where no key stands twice, a pair of the list is what its key reads. -/
theorem lookup_of_mem {k : α} {b : β} {m : List (α × β)} (hm : (m.map (·.1)).Nodup)
    (h : (k, b) ∈ m) : m.lookup k = some b := by
  induction m with
  | nil => simp at h
  | cons e rest ih =>
    obtain ⟨k', b'⟩ := e
    rw [List.map_cons, List.nodup_cons] at hm
    rcases List.mem_cons.1 h with heq | hrest
    · obtain ⟨rfl, rfl⟩ := Prod.mk.inj heq
      exact List.lookup_cons_self
    · have hk : k ≠ k' := by
        rintro rfl
        exact hm.1 (List.mem_map.2 ⟨(k, b), hrest, rfl⟩)
      rw [lookup_cons_of_ne b' rest hk]
      exact ih hm.2 hrest

theorem lookup_eq_some_iff_mem {k : α} {b : β} {m : List (α × β)} (hm : (m.map (·.1)).Nodup) :
    m.lookup k = some b ↔ (k, b) ∈ m :=
  ⟨mem_of_lookup, lookup_of_mem hm⟩

/-- Where no key stands twice, the order of the pairs does not matter. -/
theorem lookup_of_perm {m m' : List (α × β)} (hm : (m.map (·.1)).Nodup) (h : m.Perm m') (k : α) :
    m.lookup k = m'.lookup k := by
  have hm' : (m'.map (·.1)).Nodup := (h.map _).nodup_iff.1 hm
  refine Option.ext fun b => ?_
  rw [lookup_eq_some_iff_mem hm, lookup_eq_some_iff_mem hm', h.mem_iff]

theorem lookup_map_snd (f : β → γ) (k : α) :
    ∀ m : List (α × β), (m.map fun e => (e.1, f e.2)).lookup k = (m.lookup k).map f
  | [] => rfl
  | (k', b') :: rest => by
    rw [List.map_cons]
    by_cases hk : k = k'
    · subst hk
      rw [List.lookup_cons_self, List.lookup_cons_self, Option.map_some]
    · rw [lookup_cons_of_ne (f b') _ hk, lookup_cons_of_ne b' _ hk, lookup_map_snd f k rest]

theorem lookup_filter_fst (p : α → Bool) (k : α) :
    ∀ m : List (α × β), (m.filter fun e => p e.1).lookup k = if p k then m.lookup k else none
  | [] => by simp
  | (k', b') :: rest => by
    have ih := lookup_filter_fst p k rest
    rw [List.filter_cons]
    by_cases hk : k = k'
    · subst hk
      cases hp : p k with
      | true => simp
      | false => simpa [hp] using ih
    · rw [lookup_cons_of_ne b' _ hk, ← ih]
      split
      · exact lookup_cons_of_ne b' _ hk
      · rfl

omit [DecidableEq α] in
theorem nodup_append_singleton {l : List α} {a : α} (hl : l.Nodup) (ha : a ∉ l) :
    (l ++ [a]).Nodup := by
  rw [← List.concat_eq_append]
  exact List.Nodup.concat ha hl

theorem nodup_eraseDups {l : List α} : l.eraseDups.Nodup := by
  induction h : l.length using Nat.strongRecOn generalizing l with
  | ind n ih =>
    cases l with
    | nil => exact List.nodup_nil
    | cons a l =>
      rw [List.eraseDups_cons, List.nodup_cons]
      refine ⟨by simp [List.mem_eraseDups], ih _ ?_ rfl⟩
      have := List.length_filter_le (fun b => !b == a) l
      rw [List.length_cons] at h
      omega

omit [DecidableEq α] in
/-- What is related to an element of the second list. -/
theorem exists_of_forall₂_right {R : α → β → Prop} {l : List α} {m : List β}
    (h : List.Forall₂ R l m) {b : β} (hb : b ∈ m) : ∃ a ∈ l, R a b := by
  induction h with
  | nil => exact absurd hb List.not_mem_nil
  | @cons x y l m hxy _ ih =>
    rcases List.mem_cons.1 hb with rfl | hb
    · exact ⟨x, List.mem_cons_self, hxy⟩
    · obtain ⟨a, ha, hab⟩ := ih hb
      exact ⟨a, List.mem_cons_of_mem _ ha, hab⟩

/-- Where no key stands twice, the pairs are the keys with what they read. -/
theorem map_lookup_keys {m : List (α × β)} (hm : (m.map (·.1)).Nodup) (f : α → β)
    (hf : ∀ k b, m.lookup k = some b → f k = b) : (m.map (·.1)).map (fun k => (k, f k)) = m := by
  rw [List.map_map]
  refine (List.map_congr_left fun e he => ?_).trans (List.map_id m)
  show (e.1, f e.1) = e
  rw [hf e.1 e.2 (lookup_of_mem hm he)]

/-! ## Writing -/

theorem map_fst_assign (k : α) (b : β) :
    ∀ m : List (α × β), (assign k b m).map (·.1) =
      if k ∈ m.map (·.1) then m.map (·.1) else m.map (·.1) ++ [k]
  | [] => by simp [assign]
  | (k', b') :: rest => by
    have ih := map_fst_assign k b rest
    unfold assign
    by_cases hk : k' = k
    · simp [hk]
    · rw [if_neg hk, List.map_cons, ih]
      by_cases hmem : k ∈ rest.map (·.1)
      · rw [if_pos hmem, if_pos (by simp [hmem])]
        rfl
      · rw [if_neg hmem, if_neg (by simpa [Ne.symm hk] using hmem)]
        rfl

theorem nodup_keys_assign (k : α) (b : β) {m : List (α × β)} (hm : (m.map (·.1)).Nodup) :
    ((assign k b m).map (·.1)).Nodup := by
  rw [map_fst_assign]
  split
  · exact hm
  · rename_i h
    exact nodup_append_singleton hm h

theorem mem_assign {k : α} {b : β} {e : α × β} :
    ∀ {m : List (α × β)}, e ∈ assign k b m → e = (k, b) ∨ e ∈ m
  | [], h => by simpa [assign] using h
  | (k', b') :: rest, h => by
    unfold assign at h
    split at h
    · rcases List.mem_cons.1 h with h | h
      · exact .inl h
      · exact .inr (List.mem_cons_of_mem _ h)
    · rcases List.mem_cons.1 h with h | h
      · exact .inr (h ▸ List.mem_cons_self)
      · rcases mem_assign h with h | h
        · exact .inl h
        · exact .inr (List.mem_cons_of_mem _ h)

/-- What a key reads after writing. -/
theorem lookup_assign (k j : α) (b : β) (m : List (α × β)) :
    (assign k b m).lookup j = if j = k then some b else m.lookup j := by
  split
  · rename_i h
    rw [h, lookup_assign_self]
  · rename_i h
    exact lookup_assign_of_ne b h m

/-- What a key reads after one is put at the end. -/
theorem lookup_append_pair (k j : α) (b : β) (m : List (α × β)) :
    (m ++ [(k, b)]).lookup j = (m.lookup j).or (if j = k then some b else none) := by
  rw [List.lookup_append]
  by_cases hj : j = k
  · rw [if_pos hj, hj, List.lookup_cons_self]
  · rw [if_neg hj, lookup_cons_of_ne b [] hj, List.lookup_nil]

/-- What a key reads after a new one is put at the end. -/
theorem lookup_append_singleton {k : α} (j : α) (b : β) {m : List (α × β)} (hk : k ∉ m.map (·.1)) :
    (m ++ [(k, b)]).lookup j = if j = k then some b else m.lookup j := by
  rw [lookup_append_pair]
  by_cases hj : j = k
  · subst hj
    have hnone : m.lookup j = none :=
      Option.eq_none_iff_forall_ne_some.2 fun held hheld => hk (mem_keys_of_lookup hheld)
    rw [hnone, Option.none_or, if_pos rfl]
  · rw [if_neg hj, if_neg hj, Option.or_none]

theorem of_lookup_append_pair {k j : α} {b held : β} {m : List (α × β)}
    (h : (m ++ [(k, b)]).lookup j = some held) : m.lookup j = some held ∨ j = k ∧ held = b := by
  rw [lookup_append_pair, Option.or_eq_some_iff] at h
  refine h.imp_right ?_
  rintro ⟨-, h⟩
  split at h
  · rename_i hj
    exact ⟨hj, (Option.some.inj h).symm⟩
  · exact absurd h (by simp)

theorem isSome_lookup_append_pair {k j : α} {b : β} {m : List (α × β)} :
    ((m ++ [(k, b)]).lookup j).isSome ↔ (m.lookup j).isSome ∨ j = k := by
  rw [lookup_append_pair, Option.isSome_or, Bool.or_eq_true]
  by_cases hj : j = k <;> simp [hj]

theorem lookup_unassign (k j : α) (m : List (α × β)) :
    (unassign k m).lookup j = if j = k then none else m.lookup j := by
  have h := lookup_filter_fst (fun a => decide (a ≠ k)) j m
  rw [show unassign k m = m.filter fun e => decide (e.1 ≠ k) from rfl, h]
  by_cases hj : j = k <;> simp [hj]

theorem lookup_unassign_eq_some_iff {k j : α} {b : β} {m : List (α × β)} :
    (unassign k m).lookup j = some b ↔ j ≠ k ∧ m.lookup j = some b := by
  rw [lookup_unassign]
  by_cases h : j = k <;> simp [h]

end Provenance
