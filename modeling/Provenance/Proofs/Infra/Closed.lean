import Provenance.Infra.Compile
import Provenance.Proofs.Infra.Provider

/-!
# Plans that lack nothing

Hooks may give a resource another name, another kind or another origin, and a resource may take the place
of another one.  Whatever is made later refers to a resource by the name that it got in the end, and a name
that is in the plan stays in it.  So as long as hooks add no dependency, every dependency is in the plan
when a step is done, and the check at the end finds nothing that is missing.

`Compilation.Grounded` is the invariant: while a step is compiled, some names are still to come, those of
its access resources; all other dependencies are in the plan, and so are the names of the storage and of the
runners that later steps refer to.  `Meets` says of a computation both what its result is like and what may
go wrong in it, with one rule for each way to compose computations; `Ends` is the case in which anything may
go wrong but a missing dependency.
-/

namespace Provenance

universe u

/-! ## Computations that may fail -/

/-- The result is as wanted, or the fault is one of those that may be. -/
def Meets {α : Type u} (E : Fault → Prop) (P : α → Prop) : Except Fault α → Prop
  | .ok a => P a
  | .error fault => E fault

section

variable {α β : Type u} {E E' : Fault → Prop} {P P' : α → Prop} {Q : β → Prop} {x : Except Fault α}

theorem Meets.mono (h : Meets E P x) (himp : ∀ a, P a → P' a) : Meets E P' x := by
  cases x with
  | ok a => exact himp a h
  | error fault => exact h

theorem Meets.weaken (h : Meets E P x) (himp : ∀ fault, E fault → E' fault) : Meets E' P x := by
  cases x with
  | ok a => exact h
  | error fault => exact himp fault h

/-- The result is known to be the result. -/
theorem Meets.eq_ok (h : Meets E P x) : Meets E (fun a => x = .ok a ∧ P a) x := by
  cases x with
  | ok a => exact ⟨rfl, h⟩
  | error fault => exact h

theorem Meets.bind {f : α → Except Fault β} (h : Meets E P x) (hf : ∀ a, P a → Meets E Q (f a)) :
    Meets E Q (x >>= f) := by
  cases x with
  | ok a => exact hf a h
  | error fault => exact h

theorem Meets.map {f : α → β} (h : Meets E P x) (hf : ∀ a, P a → Q (f a)) : Meets E Q (x.map f) := by
  cases x with
  | ok a => exact hf a h
  | error fault => exact h

/-- What each step of a run keeps up, given what is done, holds of all that is done after the run. -/
theorem Meets.foldlM {as : List β} {f : α → β → Except Fault α} {P : List β → α → Prop} {a : α}
    (done : List β) (h : P done a) (hstep : ∀ done, ∀ b ∈ as, ∀ a, P done a → Meets E (P (done ++ [b])) (f a b)) :
    Meets E (P (done ++ as)) (as.foldlM f a) := by
  induction as generalizing done a with
  | nil => rwa [List.append_nil]
  | cons b as ih =>
    rw [List.foldlM_cons]
    refine (hstep done b List.mem_cons_self a h).bind fun a' h' => ?_
    have hrest := ih (done ++ [b]) h' fun done c hc => hstep done c (List.mem_cons_of_mem _ hc)
    rwa [List.append_assoc] at hrest

end

/-! ## Computations that miss no dependency -/

/-- The fault reports a dependency that a plan lacks. -/
def Fault.IsDangling : Fault → Prop
  | .compilation _ (.dependency _ _) _ => True
  | _ => False

/-- The result is as wanted, or there is a fault that reports no missing dependency. -/
def Ends {α : Type u} (P : α → Prop) : Except Fault α → Prop
  | .ok a => P a
  | .error fault => ¬ fault.IsDangling

section

variable {α β : Type u} {P P' : α → Prop} {Q : β → Prop} {x : Except Fault α}

theorem ends_iff : Ends P x ↔ Meets (fun fault => ¬ fault.IsDangling) P x := by
  cases x <;> exact Iff.rfl

theorem Ends.mono (h : Ends P x) (himp : ∀ a, P a → P' a) : Ends P' x :=
  ends_iff.2 ((ends_iff.1 h).mono himp)

theorem Ends.bind {f : α → Except Fault β} (h : Ends P x) (hf : ∀ a, P a → Ends Q (f a)) :
    Ends Q (x >>= f) :=
  ends_iff.2 ((ends_iff.1 h).bind fun a ha => ends_iff.1 (hf a ha))

theorem Ends.map {f : α → β} (h : Ends P x) (hf : ∀ a, P a → Q (f a)) : Ends Q (x.map f) :=
  ends_iff.2 ((ends_iff.1 h).map hf)

/-- What each step of a run keeps up holds after the run. -/
theorem Ends.foldlM {as : List β} {f : α → β → Except Fault α} {a : α} (h : P a)
    (hstep : ∀ b ∈ as, ∀ a, P a → Ends P (f a b)) : Ends P (as.foldlM f a) :=
  ends_iff.2 (Meets.foldlM (P := fun _ => P) [] h fun _ b hb a ha => ends_iff.1 (hstep b hb a ha))

end

/-! ## What providers refuse -/

/-- What a provider refuses is not a dependency, but something that it cannot express. -/
structure Provider.Frank (p : Provider) : Prop where
  storage : ∀ x spec, Ends (fun r => p.storage x spec = .ok r) (p.storage x spec)
  compute : ∀ s bs, Ends (fun made => p.compute s bs = .ok made) (p.compute s bs)
  schedule : ∀ s schedule runner,
    Ends (fun r => p.schedule s schedule runner = .ok r) (p.schedule s schedule runner)
  monitoring : ∀ s monitoring runner,
    Ends (fun rs => p.monitoring s monitoring runner = .ok rs) (p.monitoring s monitoring runner)

theorem Aws.frank (region : String) : (Aws.provider region).Frank where
  storage _ _ := rfl
  compute s bs := by
    dsimp only [Aws.provider]
    split
    · exact id
    · rfl
  schedule s schedule runner := by
    dsimp only [Aws.provider, Aws.rule]
    split
    · exact id
    · rfl
  monitoring s monitoring runner := by
    dsimp only [Aws.provider]
    rw [Aws.alarms_eq]
    split
    · exact id
    · rfl

theorem Dataproc.frank (project region : String) : (Dataproc.provider project region).Frank where
  storage x spec := by
    dsimp only [Dataproc.provider, Dataproc.store]
    split
    · rfl
    · rfl
    · exact id
  compute s bs := by
    dsimp only [Dataproc.provider, Dataproc.runner]
    split
    · rfl
    · rfl
    · exact id
  schedule _ _ _ := rfl
  monitoring _ _ _ := rfl

theorem Kubernetes.frank (space image : String) : (Kubernetes.provider space image).Frank where
  storage x spec := by
    dsimp only [Kubernetes.provider, Kubernetes.claim]
    split
    · rfl
    · rfl
    · exact id
  compute _ _ := rfl
  schedule _ _ _ := rfl
  monitoring _ _ _ := rfl

theorem Machine.frank (root : String) : (Machine.provider root).Frank where
  storage _ _ := rfl
  compute _ _ := rfl
  schedule _ _ _ := id
  monitoring _ _ _ := rfl

/-- **The four providers refuse no dependency.** -/
theorem Provider.Standard.frank {p : Provider} (h : p.Standard) : p.Frank := by
  cases h with
  | aws region => exact Aws.frank region
  | dataproc project region => exact Dataproc.frank project region
  | kubernetes space image => exact Kubernetes.frank space image
  | machine root => exact Machine.frank root

/-- What a provider makes depends on nothing before it is put in, but for access resources, which depend on
storage that the step is bound to and on one another; and what it refuses is not a dependency. -/
structure Provider.Frugal (p : Provider) : Prop where
  frank : p.Frank
  selfContained : p.SelfContained
  compute : ∀ s bs made, p.compute s bs = .ok made → made.compute.dependsOn = .empty
  schedule : ∀ s schedule runner r, p.schedule s schedule runner = .ok r → r.dependsOn = .empty
  monitoring : ∀ s monitoring runner rs, p.monitoring s monitoring runner = .ok rs →
    ∀ r ∈ rs, r.dependsOn = .empty

theorem Provider.Standard.frugal {p : Provider} (h : p.Standard) : p.Frugal where
  frank := h.frank
  selfContained := h.selfContained
  compute s bs made hmade := by
    obtain ⟨_, hcompute⟩ := h.orderly.compute
    exact (hcompute s bs made hmade).2.1
  schedule s schedule runner r hr := (h.orderly.schedule s schedule runner r hr).2
  monitoring s monitoring runner rs hrs r hr := (h.orderly.monitoring s monitoring runner rs hrs r hr).2

/-! ## Hooks -/

namespace Hooks

/-- The changes add no dependency.  They may drop dependencies, and change all else. -/
def KeepDependencies (h : Hooks) : Prop :=
  ∀ change ∈ h.storage ++ h.compute, ∀ r : Resource, ∀ d ∈ (change.2 r).dependsOn.toList,
    d ∈ r.dependsOn.toList

theorem keepDependencies_none : none.KeepDependencies := fun _ hchange => absurd hchange List.not_mem_nil

theorem mem_dependsOn_apply {changes : List (Address × (Resource → Resource))}
    (h : ∀ change ∈ changes, ∀ r : Resource, ∀ d ∈ (change.2 r).dependsOn.toList,
      d ∈ r.dependsOn.toList)
    {a : Address} {r : Resource} {d : ResourceId} (hd : d ∈ (apply changes a r).dependsOn.toList) :
    d ∈ r.dependsOn.toList := by
  unfold apply at hd
  induction changes generalizing r with
  | nil => exact hd
  | cons change changes ih =>
    obtain ⟨hfirst, hrest⟩ := List.forall_mem_cons.1 h
    rw [List.foldl_cons] at hd
    have hd := ih hrest hd
    split at hd
    · exact hfirst r d hd
    · exact hd

variable {h : Hooks} (hh : h.KeepDependencies) {a : Address} {r : Resource} {d : ResourceId}

include hh

theorem KeepDependencies.storage (hd : d ∈ (apply h.storage a r).dependsOn.toList) :
    d ∈ r.dependsOn.toList :=
  mem_dependsOn_apply (fun change hchange => hh change (List.mem_append_left _ hchange)) hd

theorem KeepDependencies.compute (hd : d ∈ (apply h.compute a r).dependsOn.toList) :
    d ∈ r.dependsOn.toList :=
  mem_dependsOn_apply (fun change hchange => hh change (List.mem_append_right _ hchange)) hd

end Hooks

/-! ## Names in a plan -/

namespace Plan

variable {p : Plan} {r : Resource} {id : ResourceId}

theorem mem_ids_iff : id ∈ p.ids ↔ ∃ r, p.get? id = some r := by
  unfold ids get? Index.keys
  simp only [Index.find?_eq_some_iff, List.mem_map]
  exact ⟨fun ⟨e, he, hid⟩ => ⟨e.2, hid ▸ he⟩, fun ⟨r, hr⟩ => ⟨_, hr, rfl⟩⟩

/-- An edge leads from a resource to something that it depends on. -/
theorem mem_edges_iff {d : ResourceId} :
    (id, d) ∈ p.edges ↔ ∃ r, p.get? id = some r ∧ d ∈ r.dependsOn.toList := by
  unfold edges get?
  simp only [Index.find?_eq_some_iff, List.mem_flatMap, List.mem_map, Prod.mk.injEq]
  constructor
  · rintro ⟨⟨_, r⟩, he, _, hd, rfl, rfl⟩
    exact ⟨r, he, hd⟩
  · rintro ⟨r, he, hd⟩
    exact ⟨_, he, d, hd, rfl, rfl⟩

end Plan

/-! ## Runs -/

namespace Compilation

variable {p : Provider} {h : Hooks} {g : Graph} {c : Compilation} {s : Step} {coming : List ResourceId}
  {r : Resource}

/-- Resources stand under their names, what they depend on is in the plan or is still to come, and the
storage and the runners that are known are in the plan. -/
structure Grounded (coming : List ResourceId) (c : Compilation) : Prop where
  named : ∀ id r, c.plan.get? id = some r → r.id = id
  depends : ∀ id r, c.plan.get? id = some r → ∀ d ∈ r.dependsOn.toList, d ∈ c.plan.ids ∨ d ∈ coming
  stores : ∀ a id, c.store? a = some id → id ∈ c.plan.ids
  runners : ∀ e ∈ c.runners, e.2 ∈ c.plan.ids

/-- What is put in stands under its name, and all else stays. -/
theorem ends_insert (c : Compilation) (r : Resource) : Ends (fun c' => ∃ plan, c' = { c with plan } ∧
    plan.get? r.id = some r ∧ ∀ id, id ≠ r.id → plan.get? id = c.plan.get? id) (c.insert r) := by
  unfold insert
  cases hinsert : c.plan.insert r with
  | mk result plan =>
    cases result with
    | ok id => exact ⟨plan, rfl, Plan.get?_of_insert hinsert⟩
    | error fault =>
      obtain ⟨⟨held, -, -, rfl⟩, -⟩ := Plan.insert_eq_error_iff.1 hinsert
      exact id

theorem grounded_start : (start p).Grounded [] where
  named id r hr := absurd hr (by simp [start, Plan.get?, Plan.empty])
  depends id r hr := absurd hr (by simp [start, Plan.get?, Plan.empty])
  stores a id ha := absurd ha (by simp [start, store?])
  runners e he := absurd he List.not_mem_nil

/-- What is to come may be forgotten once it is there. -/
theorem Grounded.settle (hc : c.Grounded coming) (hcoming : ∀ d ∈ coming, d ∈ c.plan.ids) :
    c.Grounded [] :=
  { hc with depends := fun key r hr d hd => .inl ((hc.depends key r hr d hd).elim id (hcoming d)) }

/-- More may be said to come. -/
theorem Grounded.await (hc : c.Grounded []) : c.Grounded coming :=
  { hc with depends := fun id r hr d hd => (hc.depends id r hr d hd).imp_right fun h => nomatch h }

/-- A resource is put in whose dependencies are there or are to come. -/
theorem Grounded.insert (hc : c.Grounded coming)
    (hr : ∀ d ∈ r.dependsOn.toList, d ∈ c.plan.ids ∨ d ∈ coming) :
    Ends (fun c' => c'.Grounded coming ∧ c.plan.ids ⊆ c'.plan.ids ∧ r.id ∈ c'.plan.ids)
      (c.insert r) := by
  refine (ends_insert c r).mono ?_
  rintro _ ⟨plan, rfl, hself, hother⟩
  have hheld : ∀ id q, plan.get? id = some q → q = r ∧ id = r.id ∨ c.plan.get? id = some q := by
    intro id q hq
    by_cases hid : id = r.id
    · rw [hid, hself] at hq
      exact .inl ⟨(Option.some.inj hq).symm, hid⟩
    · exact .inr ((hother id hid).symm.trans hq)
  have hmem : r.id ∈ plan.ids := Plan.mem_ids_iff.2 ⟨r, hself⟩
  have hsub : c.plan.ids ⊆ plan.ids := by
    intro id hid
    obtain ⟨q, hq⟩ := Plan.mem_ids_iff.1 hid
    by_cases hid : id = r.id
    · rwa [hid]
    · exact Plan.mem_ids_iff.2 ⟨q, (hother id hid).trans hq⟩
  refine ⟨⟨fun id q hq => ?_, fun id q hq d hd => ?_, fun a id ha => hsub (hc.stores a id ha),
    fun e he => hsub (hc.runners e he)⟩, hsub, hmem⟩
  · rcases hheld id q hq with ⟨rfl, rfl⟩ | hq
    · rfl
    · exact hc.named id q hq
  · rcases hheld id q hq with ⟨rfl, -⟩ | hq
    · exact (hr d hd).imp_left fun h => hsub h
    · exact (hc.depends id q hq d hd).imp_left fun h => hsub h

/-- Resources are put in one after the other. -/
theorem Grounded.insertAll {rs : List Resource} (hc : c.Grounded coming)
    (hrs : ∀ r ∈ rs, ∀ d ∈ r.dependsOn.toList, d ∈ c.plan.ids ∨ d ∈ coming) :
    Ends (fun c' => c'.Grounded coming ∧ c.plan.ids ⊆ c'.plan.ids ∧ ∀ r ∈ rs, r.id ∈ c'.plan.ids)
      (rs.foldlM Compilation.insert c) := by
  refine ends_iff.2 (Meets.foldlM (P := fun (put : List Resource) (c' : Compilation) =>
    c'.Grounded coming ∧ c.plan.ids ⊆ c'.plan.ids ∧ ∀ r ∈ put, r.id ∈ c'.plan.ids) []
      ⟨hc, List.Subset.refl _, by simp⟩ fun put r hr c₁ h₁ => ?_)
  obtain ⟨hc₁, hsub₁, hmem₁⟩ := h₁
  have hdepends : ∀ d ∈ r.dependsOn.toList, d ∈ c₁.plan.ids ∨ d ∈ coming :=
    fun d hd => (hrs r hr d hd).imp_left fun h => hsub₁ h
  refine (ends_iff.1 (hc₁.insert hdepends)).mono fun c₂ h₂ => ?_
  obtain ⟨hc₂, hsub₂, hmem₂⟩ := h₂
  refine ⟨hc₂, List.Subset.trans hsub₁ hsub₂, fun q hq => ?_⟩
  rcases List.mem_append.1 hq with hq | hq
  · exact hsub₂ (hmem₁ q hq)
  · obtain rfl := List.mem_singleton.1 hq
    exact hmem₂

/-- An address without storage is noted. -/
theorem store?_note {a b : Address} {o : Option ResourceId} {stores : List (Address × Option ResourceId)}
    {id : ResourceId} (h : ((stores ++ [(a, o)]).lookup b).join = some id) :
    (stores.lookup b).join = some id ∨ o = some id := by
  rw [List.lookup_append] at h
  cases hb : stores.lookup b with
  | some held =>
    rw [hb] at h
    exact .inl h
  | none =>
    rw [hb, Option.none_or] at h
    by_cases hab : b = a
    · subst hab
      rw [List.lookup_cons_self] at h
      exact .inr h
    · rw [List.lookup_cons, beq_false_of_ne hab] at h
      exact absurd h (by simp)

variable (hp : p.Frugal) (hh : h.KeepDependencies)

include hp hh

/-- The storage of an address is looked at. -/
theorem Grounded.ensureStore (hc : c.Grounded []) (a : Address) :
    Ends (Grounded []) (ensureStore p h g c a) := by
  unfold Compilation.ensureStore
  split
  · exact hc
  split
  · refine { hc with stores := fun b id hb => ?_ }
    exact (store?_note hb).elim (hc.stores b id) fun hnone => absurd hnone (by simp)
  · rename_i asset spec _
    refine (hp.frank.storage asset spec).bind fun made hmade => ?_
    -- storage depends on nothing, and a change adds nothing
    have hbare : ∀ d ∈ (Hooks.apply h.storage a (made.madeFor a.text)).dependsOn.toList,
        d ∈ c.plan.ids ∨ d ∈ [] := by
      intro d hd
      have hd := hh.storage hd
      rw [Resource.dependsOn_madeFor, hp.selfContained.storage asset spec made hmade] at hd
      exact absurd hd List.not_mem_nil
    refine (hc.insert hbare).bind fun c₁ h₁ => ?_
    obtain ⟨hc₁, -, hmem⟩ := h₁
    refine { hc₁ with stores := fun b id hb => ?_ }
    rcases store?_note hb with hb | hid
    · exact hc₁.stores b id hb
    · rwa [← Option.some.inj hid]

/-- A runner depends on what is in the plan and on its access resources, and these on what is in the plan
and on one another. -/
theorem Grounded.makeRunner (hc : c.Grounded []) : Ends (fun made => made.2.Grounded [] ∧
    (∀ d ∈ made.1.compute.dependsOn.toList,
      d ∈ made.2.plan.ids ∨ d ∈ made.1.access.map Resource.id) ∧
    ∀ q ∈ made.1.access, ∀ d ∈ q.dependsOn.toList,
      d ∈ made.2.plan.ids ∨ d ∈ made.1.access.map Resource.id) (makeRunner p h g c s) := by
  unfold Compilation.makeRunner
  refine (hp.frank.compute s (bindings g c s)).bind fun made hmade => ?_
  refine ⟨⟨hc.named, hc.depends, hc.stores, hc.runners⟩, fun d hd => ?_, fun q hq d hd => ?_⟩
  · have hd := hh.compute hd
    rw [Resource.mem_dependAll, Resource.mem_dependAll, Resource.mem_dependAll,
      Resource.dependsOn_madeFor, hp.compute _ _ _ hmade] at hd
    rcases hd with hparent | haccess | hstore | hnone
    · obtain ⟨id, -, hlookup⟩ := List.mem_filterMap.1 hparent
      obtain ⟨l, k, hrunners, -⟩ := List.lookup_eq_some_iff.1 hlookup
      have hmem : (id, d) ∈ c.runners := by
        rw [hrunners]
        simp
      exact .inl (hc.runners _ hmem)
    · exact .inr haccess
    · obtain ⟨t, -, ht⟩ := List.mem_filterMap.1 hstore
      exact .inl (hc.stores _ _ ht)
    · exact absurd hnone List.not_mem_nil
  · rcases hp.selfContained.access s _ made hmade q hq d hd with ⟨e, he, rfl⟩ | ⟨q', hq', rfl⟩
    · -- a step is bound to what the plan holds under a name, and that is its own name
      obtain ⟨t, -, hbinding⟩ := List.mem_filterMap.1 (mem_stored_iff.1 he)
      obtain ⟨x, -, heq⟩ := Option.map_eq_some_iff.1 hbinding
      obtain ⟨id, hid, hget⟩ := Option.bind_eq_some_iff.1 (Binding.mk.inj heq).2.1
      have hname := hc.named id _ hget
      exact .inl (hname ▸ hc.stores _ _ hid)
    · exact .inr (List.mem_map_of_mem hq')

omit hh in
theorem Grounded.addTrigger {runner : ResourceId} (hc : c.Grounded []) (hrunner : runner ∈ c.plan.ids) :
    Ends (fun c' => c'.Grounded [] ∧ c.plan.ids ⊆ c'.plan.ids) (addTrigger p s runner c) := by
  unfold Compilation.addTrigger
  split
  · exact ⟨hc, List.Subset.refl _⟩
  · rename_i schedule _
    refine (hp.frank.schedule s schedule runner).bind fun trigger htrigger => ?_
    have hbare := hp.schedule _ _ _ _ htrigger
    refine (hc.insert fun d hd => .inl ?_).mono fun c' h' => ⟨h'.1, h'.2.1⟩
    rw [Resource.dependsOn_madeFor, Resource.toList_depend _ hbare, List.mem_singleton] at hd
    rwa [hd]

omit hh in
theorem Grounded.addAlerts {runner : ResourceId} (hc : c.Grounded []) (hrunner : runner ∈ c.plan.ids) :
    Ends (fun c' => c'.Grounded [] ∧ c.plan.ids ⊆ c'.plan.ids) (addAlerts p s runner c) := by
  unfold Compilation.addAlerts
  split
  · exact ⟨hc, List.Subset.refl _⟩
  · rename_i monitoring _
    refine (hp.frank.monitoring s monitoring runner).bind fun alerts halerts => ?_
    have hall : ∀ r ∈ alerts.map fun t => (t.depend runner).madeFor s.origin,
        ∀ d ∈ r.dependsOn.toList, d ∈ c.plan.ids ∨ d ∈ [] := by
      intro r hr d hd
      obtain ⟨t, ht, rfl⟩ := List.mem_map.1 hr
      have hbare := hp.monitoring _ _ _ _ halerts t ht
      rw [Resource.dependsOn_madeFor, Resource.toList_depend _ hbare, List.mem_singleton] at hd
      exact .inl (hd ▸ hrunner)
    have hinserts := hc.insertAll hall
    rw [List.foldlM_map] at hinserts
    exact hinserts.mono fun c' h' => ⟨h'.1, h'.2.1⟩

/-- **One step of a run.** -/
theorem Grounded.addStep (hc : c.Grounded []) (s : Step) : Ends (Grounded []) (addStep p h g c s) := by
  unfold Compilation.addStep
  refine (Ends.foldlM hc fun t _ c hc => hc.ensureStore hp hh t.1).bind fun c₁ hc₁ => ?_
  refine (hc₁.makeRunner hp hh).bind fun made hmade => ?_
  obtain ⟨⟨compute, access⟩, c₂⟩ := made
  obtain ⟨hc₂, hcompute, haccess⟩ := hmade
  dsimp only at hc₂ hcompute haccess ⊢
  -- from here on the access resources are to come
  refine (hc₂.await.insert hcompute).bind fun c₃ h₃ => ?_
  obtain ⟨hc₃, hsub₃, hrunner₃⟩ := h₃
  have haccess₃ : ∀ q ∈ access.map (·.madeFor s.origin), ∀ d ∈ q.dependsOn.toList,
      d ∈ c₃.plan.ids ∨ d ∈ access.map Resource.id := by
    intro _ hmem d hd
    obtain ⟨q, hq, rfl⟩ := List.mem_map.1 hmem
    exact (haccess q hq d hd).imp_left fun h => hsub₃ h
  have hinserts := hc₃.insertAll haccess₃
  rw [List.foldlM_map] at hinserts
  refine hinserts.bind fun c₄ h₄ => ?_
  obtain ⟨hc₄, hsub₄, hmem₄⟩ := h₄
  -- and now they are there
  have hc₄ := hc₄.settle fun d hd => by
    obtain ⟨q, hq, rfl⟩ := List.mem_map.1 hd
    exact hmem₄ (q.madeFor s.origin) (List.mem_map_of_mem hq)
  refine (hc₄.addTrigger hp (hsub₄ hrunner₃)).bind fun c₅ h₅ => ?_
  obtain ⟨hc₅, hsub₅⟩ := h₅
  refine (hc₅.addAlerts hp (hsub₅ (hsub₄ hrunner₃))).bind fun c₆ h₆ => ?_
  obtain ⟨hc₆, hsub₆⟩ := h₆
  refine { hc₆ with runners := fun e he => ?_ }
  rcases List.mem_append.1 he with he | he
  · exact hc₆.runners e he
  · rw [List.mem_singleton.1 he]
    exact hsub₆ (hsub₅ (hsub₄ hrunner₃))

/-- **A whole run.** -/
theorem ends_ofGraph (g : Graph) : Ends (Grounded []) (ofGraph p h g) := by
  unfold ofGraph
  refine (Ends.foldlM grounded_start fun s _ c hc => hc.addStep hp hh s).bind fun c₁ hc₁ => ?_
  refine (Ends.foldlM hc₁ fun a _ c hc => hc.ensureStore hp hh a).bind fun c₂ hc₂ => ?_
  have hclosed : ∀ id r, c₂.plan.get? id = some r → ∀ d ∈ r.dependsOn.toList,
      ∃ q, c₂.plan.get? d = some q := by
    intro id r hr d hd
    exact Plan.mem_ids_iff.1 ((hc₂.depends id r hr d hd).resolve_right List.not_mem_nil)
  rw [Plan.checked_of_contains hclosed]
  exact hc₂

end Compilation

/-- **In a plan every dependency is the name of a resource**, and no plan fails for one that is missing. -/
theorem Plan.ends_ofGraph {p : Provider} (hp : p.Standard) {h : Hooks} (hh : h.KeepDependencies)
    (g : Graph) : Ends (fun plan : Plan => ∀ id r, plan.get? id = some r → ∀ d ∈ r.dependsOn.toList,
      d ∈ plan.ids) (Plan.ofGraph p h g) :=
  (Compilation.ends_ofGraph hp.frugal hh g).map fun _ hc id r hr d hd =>
    (hc.depends id r hr d hd).resolve_right List.not_mem_nil

end Provenance
