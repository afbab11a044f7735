import Mathlib.Data.List.Induction
import Provenance.Proofs.Infra.Closed

/-!
# What a plan holds after insertions

Resources are put into a plan one after the other.  A resource that is refused leaves the plan as it is
(`insert_eq_error_iff`), so a run of insertions can go on behind it.

The first resource that comes with a name settles what the name is for (`owner?`).  Kinds and names are
written into one text, so resources of different kinds may come with one name, and it is still the first one
that settles it.  From then on exactly the resources that were made for the same are let in, each in place of
the one before (`admitted`).  So what stands under a name after a run can be told from the resources alone.

* `Plan.get?_offer`: one insertion.
* `Plan.get?_offerAll`: **a run of insertions leaves under each name the last resource that was let in.**
* `Plan.pairwise_edges`: the edges of a plan are strictly sorted.
* `Plan.insertions_spec`: what this says of keys, origins, refusals and edges.
-/

namespace Provenance.Plan

variable {p p' : Plan} {r : Resource}

/-! ## One insertion -/

/-- The plan after a resource was offered to it, whether or not it was let in. -/
def offer (p : Plan) (r : Resource) : Plan := (p.insert r).2

theorem offer_of_insert {result : Except Fault ResourceId} (h : p.insert r = (result, p')) :
    p.offer r = p' := by
  unfold offer
  rw [h]

/-- Nothing happens to a plan that refuses what is offered. -/
theorem offer_of_error {fault : Fault} (h : p.insert r = (.error fault, p')) : p.offer r = p :=
  (offer_of_insert h).trans (insert_eq_error_iff.1 h).2

theorem provider_offer : (p.offer r).provider = p.provider := by
  cases h : p.insert r with
  | mk result p' =>
    cases result with
    | ok id => rw [offer_of_insert h, provider_of_insert h]
    | error fault => rw [offer_of_error h]

/-- What stands under a name after an insertion. -/
theorem get?_offer (id : ResourceId) : (p.offer r).get? id =
    if r.id = id ∧ ∀ o, (p.get? id).map (·.origin) = some o → o = r.origin then some r
    else p.get? id := by
  cases h : p.insert r with
  | mk result p' =>
    cases result with
    | ok name =>
      obtain ⟨hheld, -⟩ := insert_eq_ok_iff.1 h
      obtain ⟨hself, hother⟩ := get?_of_insert h
      rw [offer_of_insert h]
      by_cases hid : r.id = id
      · subst hid
        rw [if_pos]
        · exact hself
        · refine ⟨rfl, fun o ho => ?_⟩
          obtain ⟨held, hget, rfl⟩ := Option.map_eq_some_iff.1 ho
          exact hheld held hget
      · rw [if_neg fun hboth => hid hboth.1]
        exact hother id (Ne.symm hid)
    | error fault =>
      obtain ⟨⟨held, hheld, hne, -⟩, -⟩ := insert_eq_error_iff.1 h
      rw [offer_of_error h, if_neg]
      rintro ⟨rfl, hsame⟩
      exact hne (hsame held.origin (by rw [hheld, Option.map_some]))

/-! ## A run of insertions -/

/-- The plan after resources were offered to it, one after the other. -/
def offerAll (p : Plan) (rs : List Resource) : Plan := rs.foldl offer p

theorem offerAll_append (rs qs : List Resource) :
    p.offerAll (rs ++ qs) = (p.offerAll rs).offerAll qs := List.foldl_append

theorem provider_offerAll (rs : List Resource) : (p.offerAll rs).provider = p.provider := by
  induction rs using List.reverseRecOn with
  | nil => rfl
  | append_singleton rs r ih =>
    rw [offerAll_append]
    exact provider_offer.trans ih

/-- What a name is for: what the first resource with the name was made for. -/
def owner? (rs : List Resource) (id : ResourceId) : Option String :=
  (rs.find? (·.id == id)).map (·.origin)

/-- The resources with a name that were made for what the name is for. -/
def admitted (rs : List Resource) (id : ResourceId) : List Resource :=
  rs.filter fun r => r.id = id ∧ owner? rs id = some r.origin

/-- More resources do not change what a name is for. -/
theorem owner?_append (rs qs : List Resource) (id : ResourceId) :
    owner? (rs ++ qs) id = (owner? rs id).or (owner? qs id) := by
  unfold owner?
  rw [List.find?_append, Option.map_or]

theorem owner?_singleton (r : Resource) (id : ResourceId) :
    owner? [r] id = if r.id = id then some r.origin else none := by
  unfold owner?
  by_cases hid : r.id = id
  · simp [hid]
  · simp [hid]

/-- The last resource is let in under its name if the name is for what it was made for. -/
theorem getLast?_admitted_append (rs : List Resource) (r : Resource) (id : ResourceId) :
    (admitted (rs ++ [r]) id).getLast? =
      if r.id = id ∧ ∀ o, owner? rs id = some o → o = r.origin then some r
      else (admitted rs id).getLast? := by
  unfold admitted
  rw [List.filter_append, owner?_append, owner?_singleton]
  cases howner : owner? rs id with
  | none =>
    by_cases hid : r.id = id
    · simp [hid]
    · simp [hid]
  | some o =>
    by_cases hid : r.id = id
    · by_cases horigin : o = r.origin
      · simp [hid, horigin]
      · simp [hid, horigin]
    · simp [hid]

/-- **A run of insertions**: under each name stands the last resource that was let in, and it was made for
what the name is for.  The two go together, since what is let in next is decided by the origin of what
stands there. -/
theorem get?_offerAll (provider : String) (rs : List Resource) (id : ResourceId) :
    ((empty provider).offerAll rs).get? id = (admitted rs id).getLast? ∧
      (((empty provider).offerAll rs).get? id).map (·.origin) = owner? rs id := by
  induction rs using List.reverseRecOn with
  | nil => exact ⟨rfl, rfl⟩
  | append_singleton rs r ih =>
    obtain ⟨hlast, howner⟩ := ih
    have hnext : ((empty provider).offerAll (rs ++ [r])).get? id =
        if r.id = id ∧ ∀ o, owner? rs id = some o → o = r.origin then some r
        else ((empty provider).offerAll rs).get? id := by
      rw [offerAll_append, ← howner]
      exact get?_offer id
    refine ⟨?_, ?_⟩
    · rw [hnext, getLast?_admitted_append, hlast]
    · rw [hnext, owner?_append, owner?_singleton]
      cases ho : owner? rs id with
      | none =>
        rw [ho, Option.map_eq_none_iff] at howner
        by_cases hid : r.id = id
        · simp [hid]
        · simp [hid, howner]
      | some o =>
        rw [ho] at howner
        split
        · rename_i hboth
          simp [hboth.2 o rfl]
        · exact howner

/-- What stands under a name after a run has the name. -/
theorem id_of_get?_offerAll {provider : String} {rs : List Resource} {id : ResourceId}
    (h : ((empty provider).offerAll rs).get? id = some r) : r.id = id := by
  rw [(get?_offerAll provider rs id).1] at h
  have hmem := (List.mem_filter.1 (List.mem_of_getLast? h)).2
  exact (of_decide_eq_true hmem).1

/-- A name that is taken stays taken, and for the same. -/
theorem exists_get?_offerAll_append {provider : String} {rs : List Resource} {id : ResourceId}
    (h : ((empty provider).offerAll rs).get? id = some r) (qs : List Resource) :
    ∃ q, (((empty provider).offerAll rs).offerAll qs).get? id = some q ∧ q.origin = r.origin := by
  have howner := (get?_offerAll provider rs id).2
  rw [h, Option.map_some] at howner
  have hlater := (get?_offerAll provider (rs ++ qs) id).2
  rw [offerAll_append, owner?_append, ← howner, Option.some_or] at hlater
  exact Option.map_eq_some_iff.1 hlater

/-! ## Edges -/

/-- **The edges are strictly sorted**: by the resource, and those of one resource by what it depends on. -/
theorem pairwise_edges (p : Plan) :
    p.edges.Pairwise fun e f => e.1 < f.1 ∨ e.1 = f.1 ∧ e.2 < f.2 := by
  unfold edges
  rw [List.pairwise_flatMap]
  constructor
  · intro e _
    refine List.pairwise_map.2 ((List.pairwise_map.2 e.2.dependsOn.sorted).imp fun hlt => ?_)
    exact .inr ⟨rfl, hlt⟩
  · refine p.resources.sorted.imp fun {e f} hlt x hx y hy => .inl ?_
    obtain ⟨d, -, rfl⟩ := List.mem_map.1 hx
    obtain ⟨d', -, rfl⟩ := List.mem_map.1 hy
    exact hlt

/-- **What a plan holds after any run of insertions, refused ones included.**

* A resource stands under its own name, and it is the last one that was let in there.
* A name that is taken stays taken, and for the same, whatever is offered later.
* A resource is refused exactly if its name is taken for another thing; the fault says for what, and the
  plan beside it is the plan from before.
* A resource that is put in is answered with its name.  It stands under that name, and under every other
  name stands what stood there.
* The edges are the pairs of a resource and what it depends on, strictly sorted. -/
theorem insertions_spec (provider : String) (rs : List Resource) :
    (∀ id, ((empty provider).offerAll rs).get? id = (admitted rs id).getLast?) ∧
    (∀ id r, ((empty provider).offerAll rs).get? id = some r → r.id = id ∧ ∀ qs, ∃ q,
      (((empty provider).offerAll rs).offerAll qs).get? id = some q ∧ q.origin = r.origin) ∧
    (∀ r fault p', ((empty provider).offerAll rs).insert r = (.error fault, p') ↔
      (∃ held, ((empty provider).offerAll rs).get? r.id = some held ∧ held.origin ≠ r.origin ∧
        fault = .compilation r.origin (.uniqueName r.id held.origin) provider) ∧
      p' = (empty provider).offerAll rs) ∧
    (∀ r result p', ((empty provider).offerAll rs).insert r = (result, p') →
      (empty provider).offerAll (rs ++ [r]) = p') ∧
    (∀ r name p', ((empty provider).offerAll rs).insert r = (.ok name, p') →
      name = r.id ∧ p'.provider = provider ∧ p'.get? r.id = some r ∧
        ∀ id, id ≠ r.id → p'.get? id = ((empty provider).offerAll rs).get? id) ∧
    (∀ id d, (id, d) ∈ ((empty provider).offerAll rs).edges ↔
      ∃ r, ((empty provider).offerAll rs).get? id = some r ∧ d ∈ r.dependsOn.toList) ∧
    ((empty provider).offerAll rs).edges.Pairwise fun e f => e.1 < f.1 ∨ e.1 = f.1 ∧ e.2 < f.2 := by
  have hprovider : ((empty provider).offerAll rs).provider = provider := provider_offerAll rs
  refine ⟨fun id => (get?_offerAll provider rs id).1,
    fun id r hr => ⟨id_of_get?_offerAll hr, exists_get?_offerAll_append hr⟩, fun r fault p' => ?_,
    fun r result p' hr => ?_, fun r name p' hr => ?_, fun id d => mem_edges_iff, pairwise_edges _⟩
  · rw [insert_eq_error_iff, hprovider]
  · rw [offerAll_append]
    exact offer_of_insert hr
  · obtain ⟨-, hname, -⟩ := insert_eq_ok_iff.1 hr
    exact ⟨hname, (provider_of_insert hr).trans hprovider, get?_of_insert hr⟩

/-! ## Three resources of one name -/

namespace Shared

/-- A bucket that is made for raw data. -/
def bucket : Resource := (Resource.plain "store.bucket" "x").madeFor "raw"

/-- A resource of another kind and name for the same data; written into one text, both are one. -/
def twin : Resource := ((Resource.plain "store" "bucket.x").text "format" "csv").madeFor "raw"

/-- A bucket that is made for other data. -/
def stranger : Resource := (Resource.plain "store.bucket" "x").madeFor "clean"

/-- A job that uses the bucket. -/
def job : Resource := ((Resource.plain "job" "copy").depend "store.bucket.x").madeFor "step"

/-- What is put in. -/
def resources : List Resource := [bucket, twin, job]

/-- What comes of it. -/
def plan : Plan := (empty "test").offerAll resources

end Shared

/-- The second resource takes the place of the first one, and the bucket for other data is refused. -/
theorem insertions_spec_shared :
    Shared.plan.get? "store.bucket.x" = some Shared.twin ∧
    Shared.plan.insert Shared.stranger =
      (.error (.compilation "clean" (.uniqueName "store.bucket.x" "raw") "test"), Shared.plan) ∧
    (empty "test").offerAll (Shared.resources ++ [Shared.stranger]) = Shared.plan ∧
    ("job.copy", "store.bucket.x") ∈ Shared.plan.edges := by
  obtain ⟨hget, -, hrefused, hnext, -, hedges, -⟩ := insertions_spec "test" Shared.resources
  have htwin : Shared.plan.get? "store.bucket.x" = some Shared.twin := by
    refine (hget "store.bucket.x").trans ?_
    cbv
  have hjob : Shared.plan.get? "job.copy" = some Shared.job := by
    refine (hget "job.copy").trans ?_
    cbv
  have herror : Shared.plan.insert Shared.stranger =
      (.error (.compilation "clean" (.uniqueName "store.bucket.x" "raw") "test"), Shared.plan) :=
    (hrefused Shared.stranger _ _).2 ⟨⟨Shared.twin, htwin, by decide, rfl⟩, rfl⟩
  exact ⟨htwin, herror, hnext _ _ _ herror, (hedges _ _).2 ⟨Shared.job, hjob, .head _⟩⟩

end Provenance.Plan
