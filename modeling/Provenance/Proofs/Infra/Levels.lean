import Mathlib.Data.List.Sort
import Mathlib.Logic.Relation
import Provenance.Proofs.Infra.Closed
import Provenance.Proofs.Plans

/-!
# The levels of a plan

The resources of a plan stand on levels, and whatever a resource depends on stands on a lower one.  Storage
is at the bottom.  Access resources come next, on two levels: some depend on storage at most, and the others
lean on these (`Resource.Leans`).  Then follow the runners, each on a level of its own, in the order in
which their steps are executed; and on top there is what starts and what watches a step.

The kind of a resource tells its level, but for runners, where it is the place of the step
(`Provider.level`).  `Plan.Renders.level_lt` compares the levels of the two ends of an edge, part by part.
A plan with levels has no cycle and can be put in order (`Plan.not_transGen_of_level`,
`Plan.exists_order_of_level`).
-/

namespace Provenance

/-! ## Levels in general -/

namespace Plan

variable {plan : Plan} {level : ResourceId → ℕ} (hlevel : ∀ e ∈ plan.edges, level e.2 < level e.1)

include hlevel

/-- A plan with levels has no cycle. -/
theorem not_transGen_of_level (id : ResourceId) :
    ¬ Relation.TransGen (fun a b => (a, b) ∈ plan.edges) id id := by
  have hdown : ∀ a b, Relation.TransGen (fun a b => (a, b) ∈ plan.edges) a b → level b < level a := by
    intro a b hpath
    induction hpath with
    | single hedge => exact hlevel _ hedge
    | tail _ hedge ih => exact (hlevel _ hedge).trans ih
  exact fun hcycle => lt_irrefl _ (hdown id id hcycle)

/-- The names of a plan with levels, sorted by level: dependencies come first. -/
theorem exists_order_of_level (hclosed : ∀ e ∈ plan.edges, e.2 ∈ plan.ids) :
    ∃ order : List ResourceId, order.Perm plan.ids ∧ ∀ before id after,
      order = before ++ id :: after → ∀ d, (id, d) ∈ plan.edges → d ∈ before := by
  refine ⟨plan.ids.insertionSort (level · ≤ level ·), List.perm_insertionSort _ _, ?_⟩
  intro before id after horder d hedge
  have hlt := hlevel _ hedge
  have hsorted := List.pairwise_insertionSort (level · ≤ level ·) plan.ids
  have hmem : d ∈ plan.ids.insertionSort (level · ≤ level ·) :=
    (List.perm_insertionSort _ _).mem_iff.2 (hclosed _ hedge)
  rw [horder] at hsorted hmem
  have hafter := (List.pairwise_cons.1 (List.pairwise_append.1 hsorted).2.1).1
  rcases List.mem_append.1 hmem with hbefore | hmem
  · exact hbefore
  · rcases List.mem_cons.1 hmem with rfl | hmem
    · exact absurd hlt (lt_irrefl _)
    · exact absurd hlt (hafter d hmem).not_gt

end Plan

/-- A kind plays no other part. -/
theorem Resource.Plays.not_plays {r : Resource} {part part' : Part} (h : r.Plays part)
    (hne : part' ≠ part) : ¬ r.Plays part' := fun h' => hne (h'.unique h)

/-! ## The levels of a graph -/

namespace Provider

/-- The place of a step among the levels of the runners, by the name of what runs it. -/
def place (p : Provider) (g : Graph) (id : ResourceId) : ℕ := (g.steps.map (p.runnerId g)).idxOf id

/-- The level of a resource. -/
def level (p : Provider) (g : Graph) (r : Resource) : ℕ :=
  if r.Plays .storage then 0
  else if r.Plays .access then if r.Leans then 2 else 1
  else if r.Plays .compute then 3 + p.place g r.id
  else 3 + g.steps.length

variable {p : Provider} {g : Graph} {r : Resource}

theorem level_of_storage (h : r.Plays .storage) : p.level g r = 0 := if_pos h

theorem level_of_access (h : r.Plays .access) : p.level g r = if r.Leans then 2 else 1 := by
  unfold level
  rw [if_neg (h.not_plays (by decide)), if_pos h]

theorem level_of_compute (h : r.Plays .compute) : p.level g r = 3 + p.place g r.id := by
  unfold level
  rw [if_neg (h.not_plays (by decide)), if_neg (h.not_plays (by decide)), if_pos h]

theorem level_of_watch {part : Part} (h : r.Plays part) (hpart : part = .trigger ∨ part = .alert) :
    p.level g r = 3 + g.steps.length := by
  have hother : ∀ lower ∈ [Part.storage, .access, .compute], ¬ r.Plays lower := by
    intro lower hlower
    refine h.not_plays ?_
    rintro rfl
    rcases hpart with rfl | rfl <;> exact absurd hlower (by decide)
  unfold level
  rw [if_neg (hother _ (by decide)), if_neg (hother _ (by decide)), if_neg (hother _ (by decide))]

theorem place_lt {s : Step} (hs : s ∈ g.steps) : p.place g (p.runnerId g s) < g.steps.length := by
  unfold place
  rw [← List.length_map (p.runnerId g)]
  exact List.idxOf_lt_length_of_mem (List.mem_map_of_mem hs)

/-- Runners are placed as their steps, where names tell steps apart. -/
theorem place_lt_place (hg : g.Sound) (hinj : Set.InjOn (p.runnerId g) {s | s ∈ g.steps}) {s t : Step}
    (hs : s ∈ g.steps) (ht : t ∈ g.steps) (hreads : s.ReadsFrom t.output.address) :
    p.place g (p.runnerId g t) < p.place g (p.runnerId g s) := by
  have hplace : ∀ {k : ℕ} {u : Step}, g.steps[k]? = some u → p.place g (p.runnerId g u) = k := by
    intro k u hu
    obtain ⟨hk, rfl⟩ := List.getElem?_eq_some_iff.1 hu
    have hnodup : (g.steps.map (p.runnerId g)).Nodup :=
      List.Nodup.map_on (fun a ha b hb => hinj ha hb) (List.Nodup.of_map _ hg.ordered.ids)
    unfold place
    rw [← List.getElem_map (p.runnerId g) (h := by rwa [List.length_map])]
    exact hnodup.idxOf_getElem _ _
  obtain ⟨k, hk⟩ := List.mem_iff_getElem?.1 hs
  obtain ⟨j, hj⟩ := List.mem_iff_getElem?.1 ht
  rw [hplace hk, hplace hj]
  exact hg.lt_of_readsFrom hj hk hreads

end Provider

namespace Plan

variable {p : Provider} {g : Graph} {plan : Plan} (h : plan.Renders p g) (hp : p.Standard)

/-- The level of what stands under a name. -/
def level (plan : Plan) (p : Provider) (g : Graph) (id : ResourceId) : ℕ :=
  (plan.get? id).elim 0 (p.level g)

theorem level_eq {id : ResourceId} {r : Resource} (hr : plan.get? id = some r) :
    plan.level p g id = p.level g r := by
  unfold level
  rw [hr]
  rfl

include h hp

/-- What stands in the plan under the name of a resource that plays a part is of its kind. -/
theorem Renders.kind_of_id {d : ResourceId} {r q : Resource} {part : Part} (hr : plan.get? d = some r)
    (hq : q.Plays part) (hid : q.id = d) : r.kind = q.kind := by
  obtain ⟨hname, part', hgives⟩ := h.gives d r hr
  exact ((hgives.plays hp.orderly).of_id hq (hname.trans hid.symm)).1

/-- Storage is on the lowest level. -/
theorem Renders.level_storage {d : ResourceId} {r q : Resource} (hr : plan.get? d = some r)
    (hq : q.Plays .storage) (hid : q.id = d) : p.level g r = 0 := by
  refine Provider.level_of_storage ?_
  unfold Resource.Plays at hq ⊢
  rwa [h.kind_of_id hp hr hq hid]

/-- Access resources are on the level of their kind. -/
theorem Renders.level_access {d : ResourceId} {r q : Resource} (hr : plan.get? d = some r)
    (hq : q.Plays .access) (hid : q.id = d) : p.level g r = if q.Leans then 2 else 1 := by
  have hkind := h.kind_of_id hp hr hq hid
  have hplays : r.Plays .access := by
    unfold Resource.Plays at hq ⊢
    rwa [hkind]
  rw [Provider.level_of_access hplays]
  exact if_congr (Resource.leans_congr hkind) rfl rfl

/-- Runners are on the level of their step. -/
theorem Renders.level_compute {d : ResourceId} {r : Resource} {s : Step} (hr : plan.get? d = some r)
    (hs : s ∈ g.steps) (hid : p.runnerId g s = d) : p.level g r = 3 + p.place g d := by
  obtain ⟨made, hmade, hget, -⟩ := h.compute s hs
  rw [Provider.runnerId_eq hmade] at hid
  rw [hid, hr] at hget
  obtain rfl := Option.some.inj hget
  rw [Provider.level_of_compute ((Provider.Gives.compute hs hmade).plays hp.orderly),
    Provider.id_linked, hid]

/-- What starts or watches a step is above the runners. -/
theorem Renders.level_lt_watch {r q : Resource} {part : Part} {s : Step} {made : Runner}
    {d : ResourceId} (hr : r.Plays part) (hpart : part = .trigger ∨ part = .alert) (hs : s ∈ g.steps)
    (hmade : p.runner? g s = some made)
    (hwatch : p.Starts s made.compute.id r ∨ p.Watches s made.compute.id r)
    (hq : plan.get? d = some q) (hd : d ∈ r.dependsOn.toList) : p.level g q < p.level g r := by
  rw [Provider.dependsOn_of_starts hp.orderly hwatch, List.mem_singleton] at hd
  have hid : p.runnerId g s = d := (Provider.runnerId_eq hmade).trans hd.symm
  rw [Provider.level_of_watch hr hpart, h.level_compute hp hq hs hid, ← hid]
  exact Nat.add_lt_add_left (Provider.place_lt hs) 3

variable (hg : g.Sound) (hassets : (g.assets.map (·.address)).Nodup)
  (hdigest : Set.InjOn Naming.digest g.hashed)

include hg hassets hdigest

/-- **A resource stands above what it depends on.** -/
theorem Renders.level_lt (hclosed : ∀ e ∈ plan.edges, e.2 ∈ plan.ids) :
    ∀ e ∈ plan.edges, plan.level p g e.2 < plan.level p g e.1 := by
  rintro ⟨id, d⟩ hedge
  obtain ⟨r, hr, hd⟩ := mem_edges_iff.1 hedge
  obtain ⟨q, hq⟩ := mem_ids_iff.1 (hclosed _ hedge)
  obtain ⟨rfl, part, hgives⟩ := h.gives id r hr
  have hplays := hgives.plays hp.orderly
  dsimp only at hq ⊢
  rw [level_eq hr, level_eq hq]
  cases hgives with
  | @storage x r hx hstored =>
    obtain ⟨spec, made, -, hmade, rfl⟩ := Provider.stored?_eq_some_iff.1 hstored
    rw [Resource.dependsOn_madeFor, hp.selfContained.storage x spec made hmade] at hd
    exact absurd hd List.not_mem_nil
  | @compute s made hs hmade =>
    rw [Provider.level_of_compute hplays]
    rcases (h.mem_dependsOn_linked_iff hp.orderly hg hassets hmade).1 hd with
      ⟨x, hx, hstorage, -, hid⟩ | ⟨q', hq', hid⟩ | ⟨t, ht, hup, hid⟩
    · obtain ⟨r', hr', -⟩ := h.storage x hx hstorage
      rw [Provider.storeId_eq hr'] at hid
      rw [h.level_storage hp hq ((Provider.Gives.storage hx hr').plays hp.orderly) hid]
      exact Nat.lt_of_lt_of_le (by decide) (Nat.le_add_right 3 _)
    · rw [h.level_access hp hq ((Provider.Gives.access hs hmade hq').plays hp.orderly) hid]
      refine Nat.lt_of_lt_of_le ?_ (Nat.le_add_right 3 _)
      split <;> decide
    · have hinj := (h.bijOn_runnerId hp.orderly hg hdigest).injOn
      have hlt := Provider.place_lt_place hg hinj hs ht ((hg.id_mem_upstream_iff hs ht).1 hup)
      rw [h.level_compute hp hq ht hid, ← hid, Provider.id_linked, ← Provider.runnerId_eq hmade]
      exact Nat.add_lt_add_left hlt 3
  | @access s made r hs hmade hr' =>
    rw [Resource.dependsOn_madeFor] at hd
    rcases hp.layered _ _ _ (Provider.runner?_eq_some_iff.1 hmade) r hr' d hd with
      ⟨e, he, hid⟩ | ⟨hleans, q', hq', hplain, hid⟩
    · obtain ⟨a, -, hx, hr'⟩ := Provider.mem_stored_bindings_iff.1 he
      have hstorage := (Provider.Gives.storage (List.mem_of_find?_eq_some hx) hr').plays hp.orderly
      rw [h.level_storage hp hq hstorage hid, Provider.level_of_access hplays]
      split <;> decide
    · have hbase : p.level g q = 1 :=
        (h.level_access hp hq ((Provider.Gives.access hs hmade hq').plays hp.orderly) hid).trans
          (if_neg hplain)
      have htop : p.level g (r.madeFor s.origin) = 2 :=
        (Provider.level_of_access hplays).trans (if_pos hleans)
      rw [hbase, htop]
      decide
  | @trigger s made r hs hmade hstarts =>
    exact h.level_lt_watch hp hplays (.inl rfl) hs hmade (.inl hstarts) hq hd
  | @alert s made r hs hmade hwatches =>
    exact h.level_lt_watch hp hplays (.inr rfl) hs hmade (.inr hwatches) hq hd

end Plan

end Provenance
