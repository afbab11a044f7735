/-! # Finite maps with sorted text keys

`Index β` keeps its entries in the order of their keys, so two indexes with the same answers are the
same value, and listing one always lists it in the same order. Keys are ordered by code point, which
is also the order of their bytes.

`KeySet` is the set of keys alone. -/

namespace Provenance

universe u

variable {β : Type u}

namespace Index

/-- Puts an entry into a sorted list of entries, in place of one with the same key. -/
def place (k : String) (v : β) : List (String × β) → List (String × β)
  | [] => [(k, v)]
  | (k', v') :: rest =>
    if k < k' then (k, v) :: (k', v') :: rest
    else if k' < k then (k', v') :: place k v rest
    else (k, v) :: rest

/-- The value under a key in a list of entries. -/
def seek (k : String) : List (String × β) → Option β
  | [] => none
  | (k', v) :: rest => if k' = k then some v else seek k rest

theorem fst_of_mem_place {k : String} {v : β} {e : String × β} :
    ∀ {es : List (String × β)}, e ∈ place k v es → e.1 = k ∨ e ∈ es
  | [], h => by simp [place] at h; simp [h]
  | (k', v') :: rest, h => by
    unfold place at h
    split at h
    · rcases List.mem_cons.1 h with h | h
      · simp [h]
      · exact .inr h
    · split at h
      · rcases List.mem_cons.1 h with h | h
        · simp [h]
        · rcases fst_of_mem_place h with h | h
          · exact .inl h
          · exact .inr (List.mem_cons_of_mem _ h)
      · rcases List.mem_cons.1 h with h | h
        · simp [h]
        · exact .inr (List.mem_cons_of_mem _ h)

theorem pairwise_place (k : String) (v : β) :
    ∀ {es : List (String × β)}, es.Pairwise (·.1 < ·.1) → (place k v es).Pairwise (·.1 < ·.1)
  | [], _ => by simp [place]
  | (k', v') :: rest, h => by
    have ⟨hhead, htail⟩ := List.pairwise_cons.1 h
    unfold place
    split
    · rename_i hk
      refine List.pairwise_cons.2 ⟨fun e he => ?_, h⟩
      rcases List.mem_cons.1 he with he | he
      · simpa [he] using hk
      · exact String.lt_trans hk (hhead e he)
    · split
      · rename_i hk
        refine List.pairwise_cons.2 ⟨fun e he => ?_, pairwise_place k v htail⟩
        rcases fst_of_mem_place he with he | he
        · simpa [he] using hk
        · exact hhead e he
      · rename_i h₁ h₂
        have : k = k' := Std.Trichotomous.trichotomous (r := (· < ·)) k k' h₁ h₂
        subst this
        exact List.pairwise_cons.2 ⟨fun e he => hhead e he, htail⟩

end Index

/-- A finite map from texts, listed in the order of its keys. -/
structure Index (β : Type u) where
  entries : List (String × β)
  sorted : entries.Pairwise (·.1 < ·.1)

namespace Index

/-- The map without entries. -/
def empty : Index β := ⟨[], .nil⟩

instance : Inhabited (Index β) := ⟨empty⟩

/-- Puts a value under a key, in place of what was there. -/
def insert (k : String) (v : β) (m : Index β) : Index β :=
  ⟨place k v m.entries, pairwise_place k v m.sorted⟩

/-- The value under a key. -/
def find? (m : Index β) (k : String) : Option β := seek k m.entries

/-- Whether there is a value under a key. -/
def contains (m : Index β) (k : String) : Bool := (m.find? k).isSome

/-- The keys in order. -/
def keys (m : Index β) : List String := m.entries.map (·.1)

/-- The values in the order of their keys. -/
def values (m : Index β) : List β := m.entries.map (·.2)

/-- The number of entries. -/
def size (m : Index β) : Nat := m.entries.length

/-- Collects entries from left to right; of two with one key the later stays. -/
def ofList (es : List (String × β)) : Index β :=
  es.foldl (fun m e => m.insert e.1 e.2) empty

/-- Applies a function to every value. -/
def map {γ : Type u} (f : β → γ) (m : Index β) : Index γ :=
  ⟨m.entries.map fun e => (e.1, f e.2), List.pairwise_map.2 m.sorted⟩

theorem ext {a b : Index β} (h : a.entries = b.entries) : a = b := by
  cases a; cases b; simp_all

theorem seek_place_self (k : String) (v : β) :
    ∀ es : List (String × β), seek k (place k v es) = some v
  | [] => by simp [place, seek]
  | (k', v') :: rest => by
    unfold place
    split
    · simp [seek]
    · split
      · rename_i h
        have : k' ≠ k := fun he => String.lt_irrefl k (he ▸ h)
        simp [seek, this, seek_place_self k v rest]
      · simp [seek]

theorem seek_place_of_ne {k j : String} (v : β) (h : j ≠ k) :
    ∀ es : List (String × β), seek j (place k v es) = seek j es
  | [] => by simp [place, seek, Ne.symm h]
  | (k', v') :: rest => by
    unfold place
    split
    · simp [seek, Ne.symm h]
    · split
      · simp [seek, seek_place_of_ne v h rest]
      · rename_i h₁ h₂
        have : k = k' := Std.Trichotomous.trichotomous (r := (· < ·)) k k' h₁ h₂
        subst this
        simp [seek, Ne.symm h]

@[simp] theorem find?_insert_self (m : Index β) (k : String) (v : β) :
    (m.insert k v).find? k = some v := seek_place_self k v m.entries

theorem find?_insert_of_ne (m : Index β) {k j : String} (v : β) (h : j ≠ k) :
    (m.insert k v).find? j = m.find? j := seek_place_of_ne v h m.entries

@[simp] theorem find?_empty (k : String) : (empty : Index β).find? k = none := rfl

end Index

/-- A finite set of texts, listed in order. -/
abbrev KeySet := Index Unit

namespace KeySet

/-- The set without members. -/
def empty : KeySet := Index.empty

/-- Adds a member. -/
def add (s : KeySet) (k : String) : KeySet := Index.insert k () s

/-- The members in order. -/
def toList (s : KeySet) : List String := Index.keys s

/-- Collects members. -/
def ofList (ks : List String) : KeySet := ks.foldl add empty

end KeySet

end Provenance
