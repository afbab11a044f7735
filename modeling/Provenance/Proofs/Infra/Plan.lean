import Mathlib.Data.List.Basic
import Provenance.Infra.Compile
import Provenance.Proofs.Index

/-!
# What a plan holds

Resources are put into a plan one after the other, and a resource may take the place of another one
under its name if both were made for the same.  So a plan shows the last resource under each name
(`Lists`), and all that were put in under one name have one origin: that is what an insertion checks.

A resource is in the plan for sure if it is told apart from the others by its name and its origin
together (`Lists.get?_of_unique`).
-/

namespace Provenance

/-! ## Results -/

section

universe u v

variable {ε : Type u} {α β : Type v}

theorem map_eq_ok_iff {f : α → β} {x : Except ε α} {b : β} :
    x.map f = .ok b ↔ ∃ a, x = .ok a ∧ f a = b := by
  cases x <;> simp [Except.map]

theorem toOption_eq_some_iff {x : Except ε α} {a : α} : x.toOption = some a ↔ x = .ok a := by
  cases x <;> simp [Except.toOption]

/-- A result that a test finds right is there. -/
theorem exists_ok_of_any {x : Except ε α} {P : α → Bool} (h : x.toOption.any P = true) :
    ∃ a, x = .ok a ∧ P a = true := by
  obtain ⟨a, ha, hP⟩ := (Option.any_eq_true _ _).1 h
  exact ⟨a, toOption_eq_some_iff.1 ha, hP⟩

theorem bind_eq_ok_iff {f : α → Except ε β} {x : Except ε α} {b : β} :
    x >>= f = .ok b ↔ ∃ a, x = .ok a ∧ f a = .ok b := by
  cases x <;> simp [bind, Except.bind]

/-- What each step of a run keeps up, given what is done, holds of all that is done after the run. -/
theorem of_foldlM_eq_ok {f : β → α → Except ε β} {P : List α → β → Prop} {as : List α} {b b' : β}
    (hrun : as.foldlM f b = .ok b') (h : P [] b)
    (hstep : ∀ done a rest, as = done ++ a :: rest → ∀ b b', P done b → f b a = .ok b' → P (done ++ [a]) b') :
    P as b' := by
  suffices hrest : ∀ rest done b, as = done ++ rest → P done b → rest.foldlM f b = .ok b' → P as b' from
    hrest as [] b rfl h hrun
  intro rest
  induction rest with
  | nil =>
    intro done b has h hrun
    obtain rfl := Except.ok.inj hrun
    rwa [has, List.append_nil]
  | cons a rest ih =>
    intro done b has h hrun
    rw [List.foldlM_cons] at hrun
    obtain ⟨b₁, hfirst, hrun⟩ := bind_eq_ok_iff.1 hrun
    exact ih (done ++ [a]) b₁ (by rw [has]; simp) (hstep done a rest has b b₁ h hfirst) hrun

end

/-! ## Names of resources -/

namespace Resource

/-- A kind without a point and the name behind it can be read off. -/
theorem idOf_inj {kind kind' name name' : String} (hkind : '.' ∉ kind.toList)
    (hkind' : '.' ∉ kind'.toList) (h : idOf kind name = idOf kind' name') :
    kind = kind' ∧ name = name' := by
  have hlist : kind.toList ++ '.' :: name.toList = kind'.toList ++ '.' :: name'.toList := by
    have htoList := congrArg String.toList h
    unfold idOf at htoList
    rwa [String.toList_append, String.toList_append, String.toList_append, String.toList_append,
      List.append_assoc, List.append_assoc] at htoList
  have hlength := congrArg (List.idxOf '.') hlist
  rw [List.idxOf_append_of_notMem hkind, List.idxOf_append_of_notMem hkind', List.idxOf_cons_self,
    List.idxOf_cons_self] at hlength
  obtain ⟨hleft, hright⟩ := List.append_inj hlist hlength
  exact ⟨String.toList_inj.1 hleft, String.toList_inj.1 (List.cons.inj hright).2⟩

section

variable (r : Resource) (key value : String) (v : Json) (id origin : String) (ids : List String)

@[simp] theorem kind_plain (kind name : String) : (plain kind name).kind = kind := rfl

@[simp] theorem name_plain (kind name : String) : (plain kind name).name = name := rfl

@[simp] theorem kind_set : (r.set key v).kind = r.kind := rfl

@[simp] theorem name_set : (r.set key v).name = r.name := rfl

@[simp] theorem dependsOn_set : (r.set key v).dependsOn = r.dependsOn := rfl

@[simp] theorem kind_text : (r.text key value).kind = r.kind := rfl

@[simp] theorem name_text : (r.text key value).name = r.name := rfl

@[simp] theorem dependsOn_text : (r.text key value).dependsOn = r.dependsOn := rfl

@[simp] theorem kind_setSome (v : Option Json) : (r.setSome key v).kind = r.kind := by
  cases v <;> rfl

@[simp] theorem name_setSome (v : Option Json) : (r.setSome key v).name = r.name := by
  cases v <;> rfl

@[simp] theorem dependsOn_setSome (v : Option Json) : (r.setSome key v).dependsOn = r.dependsOn := by
  cases v <;> rfl

@[simp] theorem kind_depend : (r.depend id).kind = r.kind := rfl

@[simp] theorem name_depend : (r.depend id).name = r.name := rfl

@[simp] theorem kind_madeFor : (r.madeFor origin).kind = r.kind := rfl

@[simp] theorem name_madeFor : (r.madeFor origin).name = r.name := rfl

@[simp] theorem id_madeFor : (r.madeFor origin).id = r.id := rfl

@[simp] theorem dependsOn_madeFor : (r.madeFor origin).dependsOn = r.dependsOn := rfl

@[simp] theorem origin_madeFor : (r.madeFor origin).origin = origin := rfl

theorem madeFor_of_origin {r : Resource} {origin : String} (h : r.origin = origin) : r.madeFor origin = r := by
  rw [← h]
  rfl

/-- Dependencies change nothing else. -/
theorem dependAll_eq (r : Resource) :
    r.dependAll ids = { r with dependsOn := ids.foldl KeySet.add r.dependsOn } := by
  unfold dependAll
  induction ids generalizing r with
  | nil => rfl
  | cons id ids ih => rw [List.foldl_cons, ih, List.foldl_cons, depend]

@[simp] theorem kind_dependAll : (r.dependAll ids).kind = r.kind := by rw [dependAll_eq]

@[simp] theorem name_dependAll : (r.dependAll ids).name = r.name := by rw [dependAll_eq]

@[simp] theorem origin_dependAll : (r.dependAll ids).origin = r.origin := by rw [dependAll_eq]

theorem mem_dependAll {d : String} :
    d ∈ (r.dependAll ids).dependsOn.toList ↔ d ∈ ids ∨ d ∈ r.dependsOn.toList := by
  rw [dependAll_eq, KeySet.mem_toList_foldl_add]

/-- The order in which dependencies are added does not matter. -/
theorem dependAll_congr {ids ids' : List String} (h : ∀ d, d ∈ ids ↔ d ∈ ids') :
    r.dependAll ids = r.dependAll ids' := by
  have hset : ids.foldl KeySet.add r.dependsOn = ids'.foldl KeySet.add r.dependsOn :=
    KeySet.eq_of_mem_toList fun d => by
      rw [KeySet.mem_toList_foldl_add, KeySet.mem_toList_foldl_add, h]
  rw [dependAll_eq, dependAll_eq, hset]

theorem mem_depend {d : String} :
    d ∈ (r.depend id).dependsOn.toList ↔ d = id ∨ d ∈ r.dependsOn.toList := Index.mem_fst_place

/-- The dependencies of a resource without any, once it is given one. -/
theorem toList_depend {r : Resource} (h : r.dependsOn = .empty) :
    (r.depend id).dependsOn.toList = [id] := by
  unfold depend
  rw [h]
  rfl

end

end Resource

/-! ## Insertions -/

namespace Plan

variable {p p' : Plan} {r q : Resource} {id : ResourceId} {log : List Resource}

/-- A resource is put in exactly if what stands under its name was made for the same. -/
theorem insert_eq_ok_iff : p.insert r = (.ok id, p') ↔ (∀ held, p.get? r.id = some held →
    held.origin = r.origin) ∧ id = r.id ∧ p' = { p with resources := p.resources.insert r.id r } := by
  unfold insert get?
  cases hheld : p.resources.find? r.id with
  | none => simp [eq_comm]
  | some held =>
    dsimp only
    split
    · rename_i horigin
      simp [horigin, eq_comm]
    · rename_i horigin
      simp [horigin]

/-- A resource is refused exactly if something that was made for another thing has its name.  The fault says
what has it, and the plan stays as it is. -/
theorem insert_eq_error_iff {fault : Fault} : p.insert r = (.error fault, p') ↔ (∃ held,
    p.get? r.id = some held ∧ held.origin ≠ r.origin ∧
      fault = .compilation r.origin (.uniqueName r.id held.origin) p.provider) ∧ p' = p := by
  unfold insert get?
  cases hheld : p.resources.find? r.id with
  | none => simp
  | some held =>
    dsimp only
    split
    · rename_i horigin
      simp [horigin]
    · rename_i horigin
      simp only [Prod.mk.injEq, Except.error.injEq, Option.some.injEq, exists_eq_left']
      exact ⟨fun h => ⟨⟨horigin, h.1.symm⟩, h.2.symm⟩, fun h => ⟨h.1.2.symm, h.2.symm⟩⟩

theorem provider_of_insert (h : p.insert r = (.ok id, p')) : p'.provider = p.provider := by
  obtain ⟨-, -, rfl⟩ := insert_eq_ok_iff.1 h
  rfl

/-- A plan after an insertion: the resource stands under its name, and all others stay. -/
theorem get?_of_insert (h : p.insert r = (.ok id, p')) :
    p'.get? r.id = some r ∧ ∀ other, other ≠ r.id → p'.get? other = p.get? other := by
  obtain ⟨-, -, rfl⟩ := insert_eq_ok_iff.1 h
  exact ⟨Index.find?_insert_self _ _ _, fun other hne => Index.find?_insert_of_ne _ _ hne⟩

/-- The plan shows the last resource under each name from a list, the last one first, in which resources
of one name have one origin. -/
structure Lists (p : Plan) (log : List Resource) : Prop where
  get? : ∀ id, p.get? id = log.find? (·.id == id)
  origin : ∀ r ∈ log, ∀ q ∈ log, q.id = r.id → q.origin = r.origin

theorem lists_empty (provider : String) : (empty provider).Lists [] where
  get? _ := rfl
  origin _ hr := absurd hr List.not_mem_nil

/-- What a plan shows under a name was put in under it. -/
theorem Lists.mem_of_get? (h : p.Lists log) {id : ResourceId} (hr : p.get? id = some r) :
    r ∈ log ∧ r.id = id := by
  rw [h.get?] at hr
  have hid := List.find?_some hr
  exact ⟨List.mem_of_find?_eq_some hr, eq_of_beq hid⟩

/-- Something stands under the name of what was put in, with its origin. -/
theorem Lists.exists_get? (h : p.Lists log) (hr : r ∈ log) :
    ∃ q ∈ log, p.get? r.id = some q ∧ q.id = r.id ∧ q.origin = r.origin := by
  obtain ⟨q, hq⟩ := Option.isSome_iff_exists.1
    (List.find?_isSome (p := (·.id == r.id)).2 ⟨r, hr, beq_self_eq_true _⟩)
  rw [← h.get?] at hq
  obtain ⟨hmem, hid⟩ := h.mem_of_get? hq
  exact ⟨q, hmem, hq, hid, h.origin r hr q hmem hid⟩

/-- What is told apart by its name and its origin is in the plan. -/
theorem Lists.get?_of_unique (h : p.Lists log) (hr : r ∈ log)
    (hunique : ∀ q ∈ log, q.id = r.id → q.origin = r.origin → q = r) : p.get? r.id = some r := by
  obtain ⟨q, hmem, hq, hid, horigin⟩ := h.exists_get? hr
  rwa [hunique q hmem hid horigin] at hq

/-- **A step of a run**: an insertion puts a resource before the others. -/
theorem Lists.insert (h : p.Lists log) (hinsert : p.insert r = (.ok id, p')) : p'.Lists (r :: log) := by
  obtain ⟨hheld, -, rfl⟩ := insert_eq_ok_iff.1 hinsert
  have hlast : ∀ q ∈ log, q.id = r.id → q.origin = r.origin := by
    intro q hq hid
    obtain ⟨held, -, hget, -, horigin⟩ := h.exists_get? hq
    rw [hid] at hget
    exact horigin.symm.trans (hheld held hget)
  refine ⟨fun id => ?_, ?_⟩
  · rw [List.find?_cons]
    by_cases hid : r.id = id
    · subst hid
      rw [beq_self_eq_true]
      exact Index.find?_insert_self _ _ _
    · rw [beq_false_of_ne hid]
      exact (Index.find?_insert_of_ne _ _ (Ne.symm hid)).trans (h.get? id)
  · refine List.forall_mem_cons.2 ⟨List.forall_mem_cons.2 ⟨fun _ => rfl, hlast⟩, fun q hq => ?_⟩
    refine List.forall_mem_cons.2 ⟨fun hid => (hlast q hq hid.symm).symm, h.origin q hq⟩

/-- A resource can be put in if what was put in under its name has its origin. -/
theorem Lists.exists_insert (h : p.Lists log) (hr : ∀ q ∈ log, q.id = r.id → q.origin = r.origin) :
    ∃ p', p.insert r = (.ok r.id, p') := by
  refine ⟨_, insert_eq_ok_iff.2 ⟨fun held hheld => ?_, rfl, rfl⟩⟩
  obtain ⟨hmem, hid⟩ := h.mem_of_get? hheld
  exact hr held hmem hid

/-- What is checked in the end is the plan itself. -/
theorem eq_of_checked (h : p.checked = .ok p') : p' = p := by
  unfold checked at h
  split at h
  · exact absurd h (by simp)
  · exact (Except.ok.inj h).symm

/-- A plan passes the check if it holds what its resources depend on. -/
theorem checked_of_contains (h : ∀ id r, p.get? id = some r → ∀ d ∈ r.dependsOn.toList,
    ∃ q, p.get? d = some q) : p.checked = .ok p := by
  have hnone : p.dangling? = none := by
    refine List.findSome?_eq_none_iff.2 fun e he => ?_
    have hheld : p.get? e.1 = some e.2 := Index.find?_eq_some_iff.2 he
    refine Option.map_eq_none_iff.2 (List.find?_eq_none.2 fun d hd => ?_)
    obtain ⟨q, hq⟩ := h e.1 e.2 hheld d hd
    have hcontains : p.contains d = true := Option.isSome_iff_exists.2 ⟨q, hq⟩
    simp [hcontains]
  unfold checked
  rw [hnone]

end Plan

/-- What a compilation puts in goes into its plan. -/
theorem Compilation.insert_eq_ok_iff {c c' : Compilation} {r : Resource} :
    c.insert r = .ok c' ↔ ∃ plan, c.plan.insert r = (.ok r.id, plan) ∧ c' = { c with plan } := by
  unfold insert
  cases hinsert : c.plan.insert r with
  | mk result plan =>
    cases result with
    | ok id =>
      obtain ⟨-, rfl, -⟩ := Plan.insert_eq_ok_iff.1 hinsert
      simp [Except.map, eq_comm]
    | error fault => simp [Except.map]

end Provenance
