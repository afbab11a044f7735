/-! # Finite maps as lists of pairs

A map that is small, or whose order of first insertion matters, is a list of pairs. `List.lookup` reads
it and `assign` writes it: an old pair is changed where it stands, a new one goes to the end. -/

namespace Provenance

universe u v

variable {α : Type u} {β : Type v} [DecidableEq α]

/-- Puts a value under a key. -/
def assign (k : α) (b : β) : List (α × β) → List (α × β)
  | [] => [(k, b)]
  | (k', b') :: rest => if k' = k then (k, b) :: rest else (k', b') :: assign k b rest

/-- Takes every pair with a key out. -/
def unassign (k : α) (m : List (α × β)) : List (α × β) := m.filter fun e => e.1 ≠ k

theorem lookup_cons_of_ne {k j : α} (b : β) (m : List (α × β)) (h : j ≠ k) :
    ((k, b) :: m).lookup j = m.lookup j := by
  rw [List.lookup_cons, beq_false_of_ne h]

@[simp] theorem lookup_assign_self (k : α) (b : β) :
    ∀ m : List (α × β), (assign k b m).lookup k = some b
  | [] => List.lookup_cons_self
  | (k', b') :: rest => by
    unfold assign
    split
    · exact List.lookup_cons_self
    · rename_i h
      rw [lookup_cons_of_ne b' _ (Ne.symm h), lookup_assign_self k b rest]

theorem lookup_assign_of_ne {k j : α} (b : β) (h : j ≠ k) :
    ∀ m : List (α × β), (assign k b m).lookup j = m.lookup j
  | [] => lookup_cons_of_ne b [] h
  | (k', b') :: rest => by
    unfold assign
    split
    · rename_i hk
      subst hk
      rw [lookup_cons_of_ne b _ h, lookup_cons_of_ne b' _ h]
    · by_cases hj : j = k'
      · subst hj
        rw [List.lookup_cons_self, List.lookup_cons_self]
      · rw [lookup_cons_of_ne b' _ hj, lookup_cons_of_ne b' _ hj, lookup_assign_of_ne b h rest]

theorem mem_of_lookup {k : α} {b : β} :
    ∀ {m : List (α × β)}, m.lookup k = some b → (k, b) ∈ m
  | [], h => by simp at h
  | (k', b') :: rest, h => by
    by_cases hk : k = k'
    · subst hk
      rw [List.lookup_cons_self] at h
      simp at h
      simp [h]
    · rw [lookup_cons_of_ne b' _ hk] at h
      exact List.mem_cons_of_mem _ (mem_of_lookup h)

end Provenance
