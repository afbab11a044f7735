import Provenance.Proofs.Infra.Accept
import Provenance.Proofs.Session

/-!
# Plans and their graphs

A plan that is made of a graph shows the graph again.  Assets that are to be stored correspond to storage,
and steps to what runs them (`Provider.storeId`, `Provider.runnerId`); what runs a step depends on its
storage, on its access resources and on what runs the steps upstream; and whatever starts or watches a
step depends on what runs it and on nothing else.

* `Plan.Renders.bijOn_storeId`, `Plan.Renders.bijOn_runnerId`: the correspondences.
* `Provider.mem_dependsOn_linked_iff`: the dependencies of what runs a step.
* `Session.plan_of_graph`: **all of this for every plan of the four providers**, as long as digests tell
  apart what is hashed for the graph.
-/

namespace Provenance

universe u

namespace Provider

variable {p : Provider} {g : Graph} {x : Asset} {s t : Step} {made : Runner} {r : Resource}

/-- The name of the storage of an asset. -/
def storeId (p : Provider) (x : Asset) : ResourceId := (p.stored? x).elim "" Resource.id

/-- The name of what runs a step. -/
def runnerId (p : Provider) (g : Graph) (s : Step) : ResourceId :=
  (p.runner? g s).elim "" fun made => made.compute.id

theorem storeId_eq (h : p.stored? x = some r) : p.storeId x = r.id := by
  unfold storeId
  rw [h]
  rfl

theorem runnerId_eq (h : p.runner? g s = some made) : p.runnerId g s = made.compute.id := by
  unfold runnerId
  rw [h]
  rfl

theorem mem_touched_iff {a : Address} :
    (∃ u ∈ Compilation.touched s, u.1 = a) ↔ s.ReadsFrom a ∨ s.output.address = a := by
  unfold Compilation.touched Step.ReadsFrom
  simp

/-- What a step writes to is its output. -/
theorem eq_output_of_mem_touched {a : Address} (h : (a, .write) ∈ Compilation.touched s) :
    a = s.output.address := by
  unfold Compilation.touched at h
  simpa using h

end Provider

namespace Plan

variable {p : Provider} {g : Graph} {plan : Plan} {r : Resource} (h : plan.Renders p g) (hp : p.Orderly)

include h

/-- The storage of every asset is in the plan. -/
theorem Renders.get?_of_stored {x : Asset} (hx : x ∈ g.assets) (hr : p.stored? x = some r) :
    plan.get? r.id = some r := by
  obtain ⟨spec, -, hspec, -⟩ := Provider.stored?_eq_some_iff.1 hr
  obtain ⟨held, hheld, hget⟩ := h.storage x hx (by rw [hspec]; rfl)
  obtain rfl := Option.some.inj (hheld.symm.trans hr)
  exact hget

include hp

/-- What plays a part in the plan was made for that part. -/
theorem Renders.gives_of_plays {id : ResourceId} {part : Part} (hr : plan.get? id = some r)
    (hplays : r.Plays part) : r.id = id ∧ p.Gives g part r := by
  obtain ⟨hid, part', hgives⟩ := h.gives id r hr
  rw [hplays.unique (hgives.plays hp)]
  exact ⟨hid, hgives⟩

variable (hg : g.Sound) (hassets : (g.assets.map (·.address)).Nodup)
  (hdigest : Set.InjOn Naming.digest g.hashed)

include hdigest

include hassets in
/-- **Assets that are to be stored correspond to storage.** -/
theorem Renders.bijOn_storeId : Set.BijOn p.storeId {x | x ∈ g.assets ∧ x.storage.isSome}
    {id | ∃ r, plan.get? id = some r ∧ r.Plays .storage} := by
  refine ⟨?_, ?_, ?_⟩
  · rintro x ⟨hx, hstorage⟩
    obtain ⟨r, hr, hget⟩ := h.storage x hx hstorage
    refine ⟨r, ?_, (Provider.Gives.storage hx hr).plays hp⟩
    rwa [Provider.storeId_eq hr]
  · rintro x ⟨hx, hstorage⟩ y ⟨hy, hstorage'⟩ hid
    obtain ⟨r, hr, hget⟩ := h.storage x hx hstorage
    obtain ⟨q, hq, hget'⟩ := h.storage y hy hstorage'
    rw [Provider.storeId_eq hr, Provider.storeId_eq hq] at hid
    rw [hid, hget'] at hget
    exact Provider.asset_eq_of_stored hp.legible hassets hdigest hy hq hx hr hid
      (congrArg Resource.origin (Option.some.inj hget).symm)
  · rintro id ⟨r, hr, hplays⟩
    obtain ⟨rfl, hgives⟩ := h.gives_of_plays hp hr hplays
    cases hgives with
    | storage hx hr =>
      obtain ⟨spec, -, hspec, -⟩ := Provider.stored?_eq_some_iff.1 hr
      exact ⟨_, ⟨hx, by rw [hspec]; rfl⟩, Provider.storeId_eq hr⟩

include hg

/-- **Steps correspond to what runs them.** -/
theorem Renders.bijOn_runnerId : Set.BijOn (p.runnerId g) {s | s ∈ g.steps}
    {id | ∃ r, plan.get? id = some r ∧ r.Plays .compute} := by
  refine ⟨fun s hs => ?_, fun s hs t ht hid => ?_, ?_⟩
  · obtain ⟨made, hmade, hget, -⟩ := h.compute s hs
    refine ⟨p.linked g s made, ?_, (Provider.Gives.compute hs hmade).plays hp⟩
    rwa [Provider.runnerId_eq hmade]
  · obtain ⟨made, hmade, hget, -⟩ := h.compute s hs
    obtain ⟨made', hmade', hget', -⟩ := h.compute t ht
    rw [Provider.runnerId_eq hmade, Provider.runnerId_eq hmade'] at hid
    rw [hid, hget'] at hget
    have horigin := congrArg Resource.origin (Option.some.inj hget).symm
    rw [Provider.origin_linked, Provider.origin_linked] at horigin
    exact Provider.step_eq_of_linked hp.legible hg hdigest ht hmade' hs hmade hid horigin
  · rintro id ⟨r, hr, hplays⟩
    obtain ⟨rfl, hgives⟩ := h.gives_of_plays hp hr hplays
    cases hgives with
    | compute hs hmade => exact ⟨_, hs, by rw [Provider.runnerId_eq hmade, Provider.id_linked]⟩

include hassets

omit hdigest in
/-- The dependencies of what runs a step. -/
theorem Renders.mem_dependsOn_linked_iff {s : Step} {made : Runner}
    (hmade : p.runner? g s = some made) {id : ResourceId} :
    id ∈ (p.linked g s made).dependsOn.toList ↔
      (∃ x ∈ g.assets, x.storage.isSome ∧ (s.ReadsFrom x.address ∨ s.output.address = x.address) ∧
        p.storeId x = id) ∨
      (∃ q ∈ made.access, q.id = id) ∨
      ∃ t ∈ g.steps, t.id ∈ g.upstream s.id ∧ p.runnerId g t = id := by
  obtain ⟨_, hcompute⟩ := hp.compute
  have hbare := (hcompute _ _ _ (Provider.runner?_eq_some_iff.1 hmade)).2.1
  unfold Provider.linked
  rw [Resource.mem_dependAll, Resource.mem_dependAll, Resource.mem_dependAll,
    Resource.dependsOn_madeFor, hbare]
  have hstores : id ∈ ((Compilation.touched s).filterMap fun t =>
      (p.storedAt? g t.1).map Resource.id) ↔ ∃ x ∈ g.assets, x.storage.isSome ∧
        (s.ReadsFrom x.address ∨ s.output.address = x.address) ∧ p.storeId x = id := by
    rw [List.mem_filterMap]
    constructor
    · rintro ⟨t, ht, hid⟩
      obtain ⟨r, hr, rfl⟩ := Option.map_eq_some_iff.1 hid
      obtain ⟨x, hx, haddress, hr⟩ := Provider.exists_of_storedAt? hr
      obtain ⟨spec, -, hspec, -⟩ := Provider.stored?_eq_some_iff.1 hr
      exact ⟨x, hx, by rw [hspec]; rfl, Provider.mem_touched_iff.1 ⟨t, ht, haddress.symm⟩,
        Provider.storeId_eq hr⟩
    · rintro ⟨x, hx, hstorage, htouched, rfl⟩
      obtain ⟨t, ht, haddress⟩ := Provider.mem_touched_iff.2 htouched
      obtain ⟨r, hr, -⟩ := h.storage x hx hstorage
      refine ⟨t, ht, ?_⟩
      rw [haddress, Provider.storedAt?_of_mem hassets hx, hr, Option.map_some, Provider.storeId_eq hr]
  have hparents : id ∈ ((g.upstream s.id).filterMap fun id => (g.step? id).bind fun t =>
      (p.runner? g t).map (·.compute.id)) ↔
        ∃ t ∈ g.steps, t.id ∈ g.upstream s.id ∧ p.runnerId g t = id := by
    rw [Provider.mem_parents_iff hg]
    refine exists_congr fun t => and_congr_right fun ht => and_congr_right fun _ => ?_
    obtain ⟨made', hmade', -⟩ := h.compute t ht
    rw [Provider.runnerId_eq hmade']
    simp [hmade']
  have haccess : id ∈ made.access.map Resource.id ↔ ∃ q ∈ made.access, q.id = id := List.mem_map
  have hnone : id ∉ KeySet.empty.toList := List.not_mem_nil
  rw [hstores, hparents, haccess, or_iff_left hnone, or_rotate, or_left_comm]

end Plan

namespace Session

variable {α : Type u} {s : Session α} {terminals : List Asset}

/-- A graph that a client builds is sound and has no two assets at one address. -/
theorem addresses_of_graph (hs : s.Reachable) (hterminals : ∀ a ∈ terminals, s.Offers (.asset a))
    {g : Graph} (hg : s.graph terminals = .ok g) : g.Sound ∧ (g.assets.map (·.address)).Nodup := by
  obtain ⟨home, hsound, hknown⟩ := hs.exists_knows hterminals
  exact ⟨Graph.sound_of_ofTerminals hsound.catalog hknown hg,
    (Graph.addresses_of_ofTerminals hsound.catalog hknown hg).1⟩

/-- A plan that an orderly provider makes of a graph that a client builds renders it. -/
theorem renders_of_graph (hs : s.Reachable) (hterminals : ∀ a ∈ terminals, s.Offers (.asset a))
    {g : Graph} (hg : s.graph terminals = .ok g) (hdigest : Set.InjOn Naming.digest g.hashed) :
    g.Sound ∧ (g.assets.map (·.address)).Nodup ∧ ∀ {p : Provider}, p.Orderly → ∀ {plan : Plan},
      Plan.ofGraph p Hooks.none g = .ok plan → plan.Renders p g := by
  obtain ⟨hgsound, hassets⟩ := addresses_of_graph hs hterminals hg
  exact ⟨hgsound, hassets, fun hp _ hplan => Plan.renders_of_ofGraph hp hgsound hassets hdigest hplan⟩

/-- **A plan shows its graph.**  Whenever one of the four providers makes a plan of a graph that is built,
and digests tell apart what is hashed for the graph, then the assets that are to be stored correspond to
the storage in the plan, and the steps to what runs them.  What runs a step depends on the storage that
the step touches, on the access resources that it is translated into, and on what runs the steps
upstream.  Whatever starts or watches a step depends on what runs it and on nothing else. -/
theorem plan_of_graph (hs : s.Reachable) (hterminals : ∀ a ∈ terminals, s.Offers (.asset a))
    {g : Graph} (hg : s.graph terminals = .ok g) {p : Provider} (hp : p.Standard)
    (hdigest : Set.InjOn Naming.digest g.hashed) {plan : Plan}
    (hplan : Plan.ofGraph p Hooks.none g = .ok plan) :
    ∃ (store : Asset → ResourceId) (runner : Step → ResourceId),
      Set.BijOn store {x | x ∈ g.assets ∧ x.storage.isSome}
        {id | ∃ r, plan.get? id = some r ∧ r.Plays .storage} ∧
      Set.BijOn runner {t | t ∈ g.steps} {id | ∃ r, plan.get? id = some r ∧ r.Plays .compute} ∧
      (∀ x ∈ g.assets, ∀ spec, x.storage = some spec → ∃ made, p.storage x spec = .ok made ∧
        plan.get? (store x) = some (made.madeFor x.address.text)) ∧
      (∀ t ∈ g.steps, ∃ made r, p.compute t (p.bindings g t) = .ok made ∧
        plan.get? (runner t) = some r ∧ r.origin = t.origin ∧
        r.properties = made.compute.properties ∧
        ∀ id, id ∈ r.dependsOn.toList ↔
          (∃ x ∈ g.assets, x.storage.isSome ∧ (t.ReadsFrom x.address ∨ t.output.address = x.address) ∧
            store x = id) ∨
          (∃ q ∈ made.access, q.id = id) ∨
          ∃ u ∈ g.steps, u.id ∈ g.upstream t.id ∧ runner u = id) ∧
      ∀ id r, plan.get? id = some r → r.Plays .trigger ∨ r.Plays .alert → ∃ t ∈ g.steps,
        (p.Starts t (runner t) r ∨ p.Watches t (runner t) r) ∧ r.dependsOn.toList = [runner t] := by
  obtain ⟨hgsound, hassets, hrender⟩ := renders_of_graph hs hterminals hg hdigest
  have hrenders := hrender hp.orderly hplan
  refine ⟨p.storeId, p.runnerId g, hrenders.bijOn_storeId hp.orderly hassets hdigest,
    hrenders.bijOn_runnerId hp.orderly hgsound hdigest, ?_, ?_, ?_⟩
  · intro x hx spec hspec
    obtain ⟨r, hr, hget⟩ := hrenders.storage x hx (by rw [hspec]; rfl)
    obtain ⟨spec', made, hspec', hmade, rfl⟩ := Provider.stored?_eq_some_iff.1 hr
    obtain rfl := Option.some.inj (hspec.symm.trans hspec')
    refine ⟨made, hmade, ?_⟩
    rwa [Provider.storeId_eq hr]
  · intro t ht
    obtain ⟨made, hmade, hget, -⟩ := hrenders.compute t ht
    refine ⟨made, p.linked g t made, Provider.runner?_eq_some_iff.1 hmade, ?_,
      Provider.origin_linked, ?_, fun id => ?_⟩
    · rwa [Provider.runnerId_eq hmade]
    · simp [Provider.linked, Resource.dependAll_eq, Resource.madeFor]
    · exact hrenders.mem_dependsOn_linked_iff hp.orderly hgsound hassets hmade
  · intro id r hr hplays
    have hwatch : ∃ t ∈ g.steps, p.Starts t (p.runnerId g t) r ∨ p.Watches t (p.runnerId g t) r := by
      rcases hplays with hplays | hplays
      · obtain ⟨-, hgives⟩ := hrenders.gives_of_plays hp.orderly hr hplays
        cases hgives with
        | trigger ht hmade hstarts => exact ⟨_, ht, .inl (by rwa [Provider.runnerId_eq hmade])⟩
      · obtain ⟨-, hgives⟩ := hrenders.gives_of_plays hp.orderly hr hplays
        cases hgives with
        | alert ht hmade hwatches => exact ⟨_, ht, .inr (by rwa [Provider.runnerId_eq hmade])⟩
    obtain ⟨t, ht, hwatch⟩ := hwatch
    exact ⟨t, ht, hwatch, Provider.dependsOn_of_starts hp.orderly hwatch⟩

/-! ## A graph with a schedule and an alert -/

namespace Late

/-- A task of one parameter that is scheduled and watched. -/
def daily : Task :=
  { copy with schedule := some ⟨"0 6 * * *", none⟩, monitoring := some ⟨true, none, []⟩ }

/-- The report, as a table. -/
def table : Asset := (report.producedBy 1).store (.plain .table)

/-- The graph behind the table. -/
def tableGraph (t : Task) : Graph := { graph t with assets := [raw, clean, table.bare] }

theorem tableGraph_eq (t : Task) : (session t).graph [table] = .ok (tableGraph t) := by
  cbv

theorem offers_table (t : Task) : ∀ a ∈ [table], (session t).Offers (.asset a) := by
  intro a ha
  obtain rfl := List.mem_singleton.1 ha
  exact .store _ (offers t _ List.mem_cons_self)

/-- The names of the table and of the two steps carry three digests. -/
theorem injOn_digest : Set.InjOn Naming.digest (tableGraph daily).hashed := by
  have hnodup : (["lake", "clean|lake", "report|lake"].map Naming.digest).Nodup := by
    decide +kernel
  have hhashed : ∀ text ∈ (tableGraph daily).hashed,
      text ∈ ["lake", "clean|lake", "report|lake"] := by
    rintro text (⟨x, hx, -, rfl⟩ | ⟨s, hs, rfl⟩)
    · simp only [tableGraph, List.mem_cons, List.not_mem_nil, or_false] at hx
      rcases hx with rfl | rfl | rfl <;> decide
    · simp only [tableGraph, graph, List.mem_cons, List.not_mem_nil, or_false] at hs
      rcases hs with rfl | rfl <;> decide
  exact fun a ha b hb => List.inj_on_of_nodup_map hnodup (hhashed a ha) (hhashed b hb)

theorem exists_plan : ∃ plan, Plan.ofGraph (Aws.provider "us-east-1") Hooks.none (tableGraph daily) =
    .ok plan := by
  have haccepts : (Aws.provider "us-east-1").Accepts (tableGraph daily) := by
    decide
  obtain ⟨hg, hassets⟩ := addresses_of_graph (reachable (t := daily) rfl) (offers_table daily)
    (tableGraph_eq daily)
  exact (Plan.exists_ofGraph_iff (Aws.orderly _) hg hassets injOn_digest (Aws.selfContained _)).2 haccepts

end Late

/-- The plan of the table has one storage and two functions. -/
theorem plan_of_graph_daily : ∃ (plan : Plan) (store : Asset → ResourceId) (runner : Step → ResourceId),
    Plan.ofGraph (Aws.provider "us-east-1") Hooks.none (Late.tableGraph Late.daily) = .ok plan ∧
    Set.BijOn store {x | x ∈ (Late.tableGraph Late.daily).assets ∧ x.storage.isSome}
      {id | ∃ r, plan.get? id = some r ∧ r.Plays .storage} ∧
    Set.BijOn runner {t | t ∈ (Late.tableGraph Late.daily).steps}
      {id | ∃ r, plan.get? id = some r ∧ r.Plays .compute} := by
  obtain ⟨plan, hplan⟩ := Late.exists_plan
  obtain ⟨store, runner, hstore, hrunner, -⟩ := plan_of_graph (Late.reachable (t := Late.daily) rfl)
    (Late.offers_table Late.daily) (Late.tableGraph_eq Late.daily) (.aws "us-east-1")
    Late.injOn_digest hplan
  exact ⟨plan, store, runner, hplan, hstore, hrunner⟩

end Session

end Provenance
