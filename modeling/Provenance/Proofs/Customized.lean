import Provenance.Proofs.Infra.Hooked
import Provenance.Proofs.Plans

/-!
# Everyone sees resources as they are in the end

Storage is translated when a step touches it for the first time, or after all steps, and it is looked up in
the plan again whenever another step is bound to it.  Hooks change it right after it is translated, and what
runs a step right after it is linked.  So whoever looks at a resource sees it with all its changes.

* `Session.customized_of_graph`: **this holds of every graph that is built and of every provider whose
  resources can be told apart**, for hooks that keep kinds, names and origins.
-/

namespace Provenance

universe u

namespace Session

variable {α : Type u} {s : Session α} {terminals : List Asset}

/-- **Everyone sees resources as they are in the end.**  Take a graph that is built, a provider whose kinds
can be read as parts and whose names have digests, hooks that keep kinds, names and origins, and let digests
tell apart what is hashed for the graph.  If the graph is compiled, then the plan shows the storage of each
asset that is to be stored: translated, with all changes that are listed under it, each once and in order.
Whenever the provider is asked for a step that touches the asset, it is given this very resource.  What runs
a step is translated, linked, and changed by what is listed under its output, each once and in order.  And
the compilation gets to each step with all this in place: only from there on it translates what starts and
what watches the step, and then the steps after it. -/
theorem customized_of_graph (hs : s.Reachable) (hterminals : ∀ a ∈ terminals, s.Offers (.asset a))
    {g : Graph} (hg : s.graph terminals = .ok g) {p : Provider} {cast : String → Part}
    (hp : p.Legible cast) {h : Hooks} (hh : h.KeepNames) (hdigest : Set.InjOn Naming.digest g.hashed)
    {c : Compilation} (hc : Compilation.ofGraph p h g = .ok c) :
    ∃ (store : Asset → Resource) (runner : Step → Resource),
      (∀ x ∈ g.assets, ∀ spec, x.storage = some spec → ∃ made, p.storage x spec = .ok made ∧
        store x = (Hooks.under h.storage x.address).foldl (fun r change => change r)
          (made.madeFor x.address.text) ∧
        c.plan.get? (store x).id = some (store x)) ∧
      (∀ t bs, .compute t bs ∈ c.calls → ∀ x ∈ g.assets, x.storage.isSome →
        (∀ access, (x.address, access) ∈ Compilation.touched t → ⟨x, some (store x), access⟩ ∈ bs) ∧
        ∀ b ∈ bs, b.asset = x → b.resource = some (store x)) ∧
      (∀ t ∈ g.steps, ∃ bs made, .compute t bs ∈ c.calls ∧ p.compute t bs = .ok made ∧
        runner t = (Hooks.under h.compute t.output.address).foldl (fun r change => change r)
          ((p.hooked h).linked g t made) ∧
        c.plan.get? (runner t).id = some (runner t)) ∧
      ∀ done t rest, g.steps = done ++ t :: rest → ∃ before mid after last,
        done.foldlM (Compilation.addStep p h g) (Compilation.start p) = .ok before ∧
        Compilation.reach p h g before t = .ok ((runner t).id, mid) ∧
        mid.plan.get? (runner t).id = some (runner t) ∧
        (∀ x ∈ g.assets, x.storage.isSome → (t.ReadsFrom x.address ∨ t.output.address = x.address) →
          mid.plan.get? (store x).id = some (store x)) ∧
        Compilation.conclude p t (runner t).id mid = .ok after ∧
        rest.foldlM (Compilation.addStep p h g) after = .ok last ∧
        (g.assets.map (·.address)).foldlM (Compilation.ensureStore p h g) last = .ok c := by
  obtain ⟨hsound, hassets⟩ := addresses_of_graph hs hterminals hg
  obtain ⟨hkeeps, hlooked⟩ := Compilation.keeps_of_ofGraph hh hp hsound hassets hdigest hc
  refine ⟨p.storeOf h, p.runnerOf h g, fun x hx spec hspec => ?_, fun t bs hcall x hx hstorage => ?_,
    fun t ht => ?_, fun done t rest hsplit => ?_⟩
  · obtain ⟨hr, hget⟩ := hkeeps.storeOf hassets hx (hlooked x hx) (by rw [hspec]; rfl)
    obtain ⟨spec', made, hspec', hmade, heq⟩ := (Provider.stored?_hooked_eq_some_iff hh).1 hr
    obtain rfl := Option.some.inj (hspec.symm.trans hspec')
    exact ⟨made, hmade, heq.trans Hooks.apply_eq, hget⟩
  · obtain rfl := hkeeps.calls t bs hcall
    rw [← (hkeeps.storeOf hassets hx (hlooked x hx) hstorage).1]
    refine ⟨fun access htouched => ?_, fun b hb hbx => ?_⟩
    · refine List.mem_filterMap.2 ⟨_, htouched, ?_⟩
      rw [(Provider.asset?_eq_some_iff hassets).2 ⟨hx, rfl⟩]
      rfl
    · obtain ⟨u, -, hu⟩ := List.mem_filterMap.1 hb
      obtain ⟨y, -, rfl⟩ := Option.map_eq_some_iff.1 hu
      rw [← hbx]
  · have hplaced := (hkeeps.placed t ht).2
    obtain ⟨made, hmade, heq, -, hget⟩ := hplaced.runnerOf hh
    obtain ⟨_, -, hcall, -⟩ := hplaced
    exact ⟨_, made, hcall, Provider.runner?_eq_some_iff.1 hmade, heq.trans Hooks.apply_eq, hget⟩
  · obtain ⟨before, mid, after, last, hdone, hreach, ⟨hmid, hplaced, htouched⟩, hconclude, hrest, hsweep⟩ :=
      Compilation.exists_reach_of_ofGraph hh hp hsound hassets hdigest hsplit hc
    obtain ⟨_, -, -, -, hget⟩ := hplaced.runnerOf hh
    refine ⟨before, mid, after, last, hdone, hreach, hget, fun x hx hstorage hread => ?_, hconclude, hrest,
      hsweep⟩
    obtain ⟨u, hu, haddress⟩ := Provider.mem_touched_iff.2 hread
    exact (hmid.storeOf hassets hx (haddress ▸ htouched u hu) hstorage).2

namespace Late

/-- Two labels for the table, one after the other, and a priority for what fills it. -/
def labelled : Hooks :=
  ⟨[(table.address, fun r => r.text "label" "draft"), (table.address, fun r => r.text "label" "final")],
    [(table.address, fun r => r.text "priority" "high")]⟩

theorem keepNames_labelled : labelled.KeepNames := by
  intro change hchange r
  simp only [labelled, List.cons_append, List.nil_append, List.mem_cons, List.not_mem_nil,
    or_false] at hchange
  rcases hchange with rfl | rfl | rfl <;> exact ⟨⟨rfl, rfl⟩, rfl⟩

end Late

/-- The table has the second label, and the step that fills it is given the table with this label. -/
theorem customized_of_graph_labelled : ∃ (c : Compilation) (table : Resource),
    Compilation.ofGraph (Aws.provider "us-east-1") Late.labelled (Late.tableGraph Late.daily) = .ok c ∧
    table.property? "label" = some (.text "final") ∧ c.plan.get? table.id = some table ∧
    ∃ t ∈ (Late.tableGraph Late.daily).steps, ∃ bs, .compute t bs ∈ c.calls ∧
      ∃ b ∈ bs, b.resource = some table := by
  have hmade : (Compilation.ofGraph (Aws.provider "us-east-1") Late.labelled
      (Late.tableGraph Late.daily)).toOption.isSome = true := by
    decide +kernel
  obtain ⟨c, hc⟩ := Option.isSome_iff_exists.1 hmade
  have hc := toOption_eq_some_iff.1 hc
  obtain ⟨store, runner, hstore, hcalls, hrunner, -⟩ := customized_of_graph
    (Late.reachable (t := Late.daily) rfl) (Late.offers_table Late.daily) (Late.tableGraph_eq Late.daily)
    (Aws.orderly "us-east-1").legible Late.keepNames_labelled Late.injOn_digest hc
  have htable : Late.table.bare ∈ (Late.tableGraph Late.daily).assets := by
    simp [Late.tableGraph]
  obtain ⟨made, -, heq, hget⟩ := hstore _ htable (.plain .table) rfl
  refine ⟨c, store Late.table.bare, hc, ?_, hget, ?_⟩
  · rw [heq]
    exact Index.find?_insert_self _ _ _
  · have hfills : Late.older Late.daily ∈ (Late.tableGraph Late.daily).steps := by
      simp [Late.tableGraph, Late.graph]
    obtain ⟨bs, _, hcall, -⟩ := hrunner _ hfills
    have hwrites : (Late.table.bare.address, Access.write) ∈ Compilation.touched (Late.older Late.daily) := by
      decide
    exact ⟨_, hfills, bs, hcall, _, (hcalls _ bs hcall _ htable rfl).1 _ hwrites, rfl⟩

end Session

end Provenance
