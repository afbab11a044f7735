import Provenance.Proofs.Plans

/-!
# Which handle an address keeps

Handles with one address are merged while they are followed: of two the one that tells more is kept, as a
whole.  Lineage counts more than a declaration of storage, although the graph keeps no lineage of the
handle, and a step's output is never followed.  So a declaration of storage can be lost.

* `Survey.merged_of_ofTerminals`: the handle that is kept is one of those that were followed, and none of
  them tells more.  Followed are the terminals, and the inputs of the steps that won an address at some time.
* `Session.storage_of_graph`: **an asset of a graph is to be stored exactly if a handle with a declaration
  of storage was followed that has lineage, or if one was followed and none with lineage.**  What is to be
  stored is in every plan.
* `Session.exists_lost_storage`: a declaration at the output of a step is lost in a graph that is built from
  another handle, and so is one at a terminal beside another terminal with lineage.
-/

namespace Provenance

universe u

namespace Survey

variable {c : Catalog} {alive : List StepId} {terminals : List Asset} {v : Survey}

/-- The handle is a terminal, or an input of a step that won an address at some time. -/
def Followed (c : Catalog) (terminals : List Asset) (v : Survey) (a : Asset) : Prop :=
  a ∈ terminals ∨ ∃ s, c.step? s.id = some s ∧ s.id ∈ v.expanded ∧ ∃ i ∈ s.inputs, i.2 = a

/-! ## Merging -/

/-- An address has a handle that tells at least as much as this one. -/
def Outranked (handles : List (Address × Asset)) (a : Asset) : Prop :=
  ∃ known, handles.lookup a.address = some known ∧ rank a ≤ rank known

/-- Merging a handle changes what is known at its address only, and only where the handle tells more. -/
theorem merge_eq (a : Asset) (handles : List (Address × Asset)) :
    (Outranked handles a ∧ merge a handles = handles) ∨
      (¬ Outranked handles a ∧ merge a handles = assign a.address a handles) := by
  unfold merge Outranked
  cases hknown : handles.lookup a.address with
  | none => exact .inr ⟨by simp, rfl⟩
  | some known =>
    dsimp only
    split
    · rename_i hrank
      exact .inl ⟨⟨known, rfl, hrank⟩, rfl⟩
    · rename_i hrank
      refine .inr ⟨?_, rfl⟩
      rintro ⟨known', heq, hrank'⟩
      obtain rfl := Option.some.inj heq
      exact hrank hrank'

/-- A handle that is merged is outranked from then on. -/
theorem outranked_merge_self (a : Asset) (handles : List (Address × Asset)) :
    Outranked (merge a handles) a := by
  rcases merge_eq a handles with ⟨hout, heq⟩ | ⟨-, heq⟩
  · rwa [heq]
  · rw [heq]
    exact ⟨a, lookup_assign_self _ _ _, le_rfl⟩

/-- What is outranked stays so. -/
theorem Outranked.merge {handles : List (Address × Asset)} {b : Asset} (h : Outranked handles b)
    (a : Asset) : Outranked (Survey.merge a handles) b := by
  rcases merge_eq a handles with ⟨-, heq⟩ | ⟨hnot, heq⟩
  · rwa [heq]
  · obtain ⟨known, hknown, hrank⟩ := h
    rw [heq]
    by_cases hb : b.address = a.address
    · have hless : rank known < rank a := by
        by_contra hge
        exact hnot ⟨known, hb ▸ hknown, Nat.le_of_not_lt hge⟩
      exact ⟨a, by rw [hb, lookup_assign_self], hrank.trans hless.le⟩
    · exact ⟨known, by rw [lookup_assign_of_ne _ hb, hknown], hrank⟩

/-! ## The walk -/

/-- The handles that are kept were followed, and outrank all that were followed so far.  The rest of those
that are to be followed is on the worklist. -/
structure Merged (c : Catalog) (terminals : List Asset) (v : Survey) (work : List Asset) : Prop where
  kept : ∀ e ∈ v.handles, e.2.address = e.1 ∧ v.Followed c terminals e.2
  outranked : ∀ a, v.Followed c terminals a → a ∈ work ∨ Outranked v.handles a
  worklist : ∀ a ∈ work, v.Followed c terminals a

/-- A turn of the worklist, with some of the steps expanded anew. -/
theorem Merged.turn {a : Asset} {work more : List Asset} {producers : List (Address × Step)}
    {expanded : List StepId} (h : Merged c terminals v (a :: work))
    (hgrows : ∀ id ∈ v.expanded, id ∈ expanded)
    (hmore : ∀ b ∈ more, Followed c terminals ⟨merge a v.handles, producers, expanded⟩ b)
    (hnew : ∀ s, c.step? s.id = some s → s.id ∈ expanded → s.id ∉ v.expanded →
      ∀ i ∈ s.inputs, i.2 ∈ more) :
    Merged c terminals ⟨merge a v.handles, producers, expanded⟩ (more ++ work) := by
  have hfollowed : ∀ b, v.Followed c terminals b →
      Followed c terminals ⟨merge a v.handles, producers, expanded⟩ b := by
    rintro b (hb | ⟨s, hs, hid, hi⟩)
    · exact .inl hb
    · exact .inr ⟨s, hs, hgrows _ hid, hi⟩
  have hold : ∀ b, v.Followed c terminals b → b ∈ work ∨ Outranked (merge a v.handles) b := by
    intro b hb
    rcases h.outranked b hb with hwork | hout
    · rcases List.mem_cons.1 hwork with rfl | hwork
      · exact .inr (outranked_merge_self b v.handles)
      · exact .inl hwork
    · exact .inr (hout.merge a)
  refine ⟨fun e he => ?_, fun b hb => ?_, fun b hb => ?_⟩
  · rcases mem_merge he with rfl | he
    · exact ⟨rfl, hfollowed a (h.worklist a List.mem_cons_self)⟩
    · exact ⟨(h.kept e he).1, hfollowed _ (h.kept e he).2⟩
  · have hcases : v.Followed c terminals b ∨ b ∈ more := by
      rcases hb with hb | ⟨s, hs, hid, i, hi, rfl⟩
      · exact .inl (.inl hb)
      · by_cases hexpanded : s.id ∈ v.expanded
        · exact .inl (.inr ⟨s, hs, hexpanded, i, hi, rfl⟩)
        · exact .inr (hnew s hs hid hexpanded i hi)
    rcases hcases with hb | hb
    · exact (hold b hb).imp_left (List.mem_append_right _)
    · exact .inl (List.mem_append_left _ hb)
  · rcases List.mem_append.1 hb with hb | hb
    · exact hmore b hb
    · exact hfollowed b (h.worklist b (List.mem_cons_of_mem _ hb))

/-- A turn of the worklist in which no step is expanded. -/
theorem Merged.skip {a : Asset} {work : List Asset} {producers : List (Address × Step)}
    (h : Merged c terminals v (a :: work)) :
    Merged c terminals ⟨merge a v.handles, producers, v.expanded⟩ work := by
  have hturn : Merged c terminals ⟨merge a v.handles, producers, v.expanded⟩ ([] ++ work) :=
    h.turn (fun _ hid => hid) (by simp) fun _ _ hid hnot => absurd hid hnot
  exact hturn

/-- **The handles that are kept are among those that were followed, and outrank them all.** -/
theorem merged_of_follow (h : follow c alive empty terminals = .ok v) : Merged c terminals v [] := by
  refine follow_induct (P := Merged c terminals) ⟨fun v a work hv _ => ?_, fun v a work s hv _ _ _ => ?_,
    fun v a work s hv hs _ _ => ?_⟩ h ?_
  · exact hv.skip
  · exact hv.skip
  · have hstep := Catalog.step?_of_producer? hs
    refine hv.turn (fun _ hid => List.mem_cons_of_mem _ hid) (fun b hb => ?_) fun t ht hid hnot i hi => ?_
    · exact .inr ⟨s, hstep, List.mem_cons_self, List.mem_map.1 hb⟩
    · have hid := (List.mem_cons.1 hid).resolve_right hnot
      rw [hid, hstep] at ht
      obtain rfl := Option.some.inj ht
      exact List.mem_map_of_mem hi
  · exact ⟨by simp [empty], fun a ha => .inl (ha.resolve_right (by simp [empty])), fun a ha => .inl ha⟩

/-- Pruning leaves the handles alone. -/
theorem merged_of_ofTerminals (h : ofTerminals c alive terminals = .ok v) : Merged c terminals v [] := by
  obtain ⟨u, hu, rfl⟩ := ofTerminals_eq_ok_iff.1 h
  have hu := merged_of_follow hu
  exact ⟨hu.kept, hu.outranked, hu.worklist⟩

/-! ## Storage -/

/-- A handle that tells at least as much as one with storage has storage too, unless it is for lineage that
the other one lacks. -/
theorem isSome_storage_of_rank_le {a b : Asset} (hrank : rank b ≤ rank a) (hb : b.storage.isSome)
    (hlineage : b.lineage.isSome ∨ a.lineage = none) : a.storage.isSome := by
  by_contra ha
  unfold rank at hrank
  rw [if_pos hb, if_neg ha] at hrank
  rcases hlineage with hlineage | hlineage
  · rw [if_pos hlineage] at hrank
    split_ifs at hrank <;> omega
  · rw [hlineage, Option.isSome_none, if_neg Bool.false_ne_true] at hrank
    split_ifs at hrank <;> omega

/-- A handle without lineage is outranked by each one with lineage. -/
theorem lineage_eq_none_of_rank_le {a b : Asset} (hrank : rank b ≤ rank a) (ha : a.lineage = none) :
    b.lineage = none := by
  by_contra hb
  have hb : b.lineage.isSome := Option.isSome_iff_ne_none.2 hb
  unfold rank at hrank
  rw [if_pos hb, ha, Option.isSome_none, if_neg Bool.false_ne_true] at hrank
  split_ifs at hrank <;> omega

end Survey

/-! ## Graphs -/

namespace Graph

variable {c : Catalog} {alive : List StepId} {terminals : List Asset} {v : Survey} {home : ℕ → Address}
  {g : Graph}

/-- **An asset of a graph is the one that tells most among the handles that were followed**, less its
lineage. -/
theorem exists_followed_of_mem (hc : c.Sound home) (hterminals : ∀ t ∈ terminals, c.Knows home t)
    (hv : Survey.ofTerminals c alive terminals = .ok v) (hshows : g.Shows v terminals) {x : Asset}
    (hx : x ∈ g.assets) : ∃ a, v.Followed c terminals a ∧ x = a.bare ∧
      ∀ b, v.Followed c terminals b → b.address = x.address → Survey.rank b ≤ Survey.rank a := by
  have hmerged := Survey.merged_of_ofTerminals hv
  rw [hshows.assets] at hx
  obtain ⟨y, hy, rfl⟩ := (mem_foldl_gather _ hx).resolve_left (by simp)
  obtain ⟨a, ha, -⟩ := hshows.mem_handles hc hterminals hv hy
  obtain ⟨haddress, hfollowed⟩ := hmerged.kept _ (mem_of_lookup ha)
  have hhandle : handle v y = a.bare := by
    rw [handle, ha]
    rfl
  refine ⟨a, hfollowed, hhandle, fun b hb hby => ?_⟩
  obtain ⟨known, hknown, hrank⟩ := (hmerged.outranked b hb).resolve_left List.not_mem_nil
  rw [hby, hhandle, Asset.address_bare, haddress, ha] at hknown
  rwa [← Option.some.inj hknown] at hrank

/-- The inputs of the steps of a graph were followed. -/
theorem followed_of_mem_inputs (hc : c.Sound home) (hterminals : ∀ t ∈ terminals, c.Knows home t)
    (hv : Survey.ofTerminals c alive terminals = .ok v) (hshows : g.Shows v terminals) {s : Step}
    (hs : s ∈ g.steps) {i : String × Asset} (hi : i ∈ s.inputs) : v.Followed c terminals i.2 := by
  have hsettled := Survey.settled_of_ofTerminals hv
  obtain ⟨a, ha⟩ := (Order.mem_steps hsettled.consistent).1 ((Order.mem_of_ofSurvey hshows.steps).1 hs)
  obtain ⟨u, hu, rfl⟩ := Survey.ofTerminals_eq_ok_iff.1 hv
  have hexpanded := (Survey.fits_of_follow hc hterminals hu).expanded _ (List.mem_of_mem_filter ha)
  exact .inr ⟨s, hsettled.step _ ha, hexpanded, i, hi, rfl⟩

end Graph

namespace Session

variable {α : Type u} {s : Session α} {terminals : List Asset}

/-- **Which assets of a graph are to be stored.**  Followed are the terminals, the inputs of the steps of the
graph, and perhaps inputs of steps that lost.  The asset at an address is to be stored exactly if a handle
with a declaration of storage was followed there that has lineage, or if one was followed and none with
lineage.  Then the storage is in every plan. -/
theorem storage_of_graph (hs : s.Reachable) (hterminals : ∀ a ∈ terminals, s.Offers (.asset a))
    {g : Graph} (hg : s.graph terminals = .ok g) :
    ∃ v, Survey.ofTerminals s.catalog (s.alive (terminals.filterMap (·.lineage))) terminals = .ok v ∧
      (∀ t ∈ g.steps, ∀ i ∈ t.inputs, v.Followed s.catalog terminals i.2) ∧
      (∀ x ∈ g.assets, (x.storage.isSome ↔ ∃ a, v.Followed s.catalog terminals a ∧
        a.address = x.address ∧ a.storage.isSome ∧ (a.lineage.isSome ∨
          ∀ b, v.Followed s.catalog terminals b → b.address = x.address → b.lineage = none))) ∧
      ∀ p : Provider, p.Standard → Set.InjOn Naming.digest g.hashed → ∀ plan,
        Plan.ofGraph p Hooks.none g = .ok plan → ∀ x ∈ g.assets, x.storage.isSome →
          ∃ r, p.stored? x = some r ∧ plan.get? r.id = some r := by
  obtain ⟨home, hsound, hknown⟩ := hs.exists_knows hterminals
  obtain ⟨v, hv, hshows⟩ := Graph.shows_of_ofTerminals hsound.catalog hknown hg
  refine ⟨v, hv, fun t ht i hi => Graph.followed_of_mem_inputs hsound.catalog hknown hv hshows ht hi,
    fun x hx => ?_, fun p hp hdigest plan hplan => ?_⟩
  · obtain ⟨a, ha, rfl, hrank⟩ := Graph.exists_followed_of_mem hsound.catalog hknown hv hshows hx
    constructor
    · intro hstorage
      refine ⟨a, ha, rfl, hstorage, ?_⟩
      cases hlineage : a.lineage with
      | some id => exact .inl rfl
      | none =>
        exact .inr fun b hb hba => Survey.lineage_eq_none_of_rank_le (hrank b hb hba) hlineage
    · rintro ⟨b, hb, hba, hstorage, hlineage⟩
      have hkept : a.storage.isSome := Survey.isSome_storage_of_rank_le (hrank b hb hba) hstorage
        (hlineage.imp_right fun h => h a ha rfl)
      exact hkept
  · obtain ⟨-, -, hrenders⟩ := renders_of_graph hs hterminals hg hdigest
    exact (hrenders hp.orderly hplan).storage

/-- The table of the late session is a terminal with lineage and storage, and it is in the plan. -/
theorem storage_of_graph_daily :
    ∃ v, Survey.ofTerminals (Late.session Late.daily).catalog
        ((Late.session Late.daily).alive ([Late.table].filterMap (·.lineage))) [Late.table] = .ok v ∧
      (∃ a, v.Followed (Late.session Late.daily).catalog [Late.table] a ∧
        a.address = Late.table.address ∧ a.storage.isSome ∧ (a.lineage.isSome ∨
          ∀ b, v.Followed (Late.session Late.daily).catalog [Late.table] b →
            b.address = Late.table.address → b.lineage = none)) ∧
      ∃ plan, Plan.ofGraph (Aws.provider "us-east-1") Hooks.none (Late.tableGraph Late.daily) =
        .ok plan ∧ ∃ r, (Aws.provider "us-east-1").stored? Late.table.bare = some r ∧
          plan.get? r.id = some r := by
  obtain ⟨v, hv, -, hstorage, hplans⟩ := storage_of_graph (Late.reachable (t := Late.daily) rfl)
    (Late.offers_table Late.daily) (Late.tableGraph_eq Late.daily)
  have hmem : Late.table.bare ∈ (Late.tableGraph Late.daily).assets := by
    simp [Late.tableGraph]
  obtain ⟨plan, hplan⟩ := Late.exists_plan
  exact ⟨v, hv, (hstorage _ hmem).1 rfl, plan, hplan,
    hplans _ (.aws "us-east-1") Late.injOn_digest plan hplan _ hmem rfl⟩

/-! ## Declarations that are lost -/

namespace Lost

open Late (raw clean)

/-- The clean data, to be kept on a volume. -/
def volume : Asset := clean.store (.plain .volume)

/-- The step that writes it. -/
def step (t : Task) : Step := ⟨1, t, [("x", raw)], volume, false⟩

/-- The session after some steps: the handle that came first is still at hand. -/
def after (steps : List Step) (handles : List (String × Asset)) : Session Unit :=
  ofSteps 2 steps ([("raw", raw), ("clean", clean)] ++ handles)

/-- The session after the step. -/
def session (t : Task) : Session Unit := after [step t] [("volume", volume.producedBy 1)]

theorem reachable {t : Task} (ht : t.params = ["x"]) : (session t).Reachable := by
  have hdeclared : (after [] []).Reachable :=
    .declare "clean" "lake" "clean" (.declare "raw" "lake" "raw" .start)
  have hdraft : raw.transform t = .ok ⟨t, [("x", raw)]⟩ := transform_of_params ht
  have hput : (after [] []).put ⟨t, [("x", raw)]⟩ volume = .ok (volume.producedBy 1, after [step t] []) := by
    cbv
  exact .put "volume" hdeclared (.single (.of_item? "raw" rfl) hdraft)
    (.store (.plain .volume) (.of_item? "clean" rfl)) hput

/-- The graph behind the handle that came first. -/
def graph (t : Task) : Graph := ⟨[clean.address], [raw, clean], [step t], (step t).links⟩

theorem graph_eq (t : Task) : (session t).graph [clean] = .ok (graph t) := by
  cbv

/-- In the late session, a handle to the clean data with lineage and one with storage. -/
def both : List Asset := [clean.producedBy 2, volume]

theorem offers_both (t : Task) : ∀ a ∈ both, (Late.session t).Offers (.asset a) := by
  intro a ha
  rcases List.mem_pair.1 ha with rfl | rfl
  · exact .of_item? "clean" rfl
  · -- the older step has taken the handle before the newer one wrote to it
    have hinput : (Late.session t).Offers (.asset clean) :=
      .input (i := ("x", clean)) (.of_item? "report" rfl) rfl (.head _)
    exact .store (.plain .volume) hinput

/-- The graph behind both. -/
def bothGraph (t : Task) : Graph :=
  ⟨[clean.address, clean.address], [raw, clean], [Late.newer t], (Late.newer t).links⟩

theorem bothGraph_eq (t : Task) : (Late.session t).graph both = .ok (bothGraph t) := by
  cbv

end Lost

/-- **Declarations of storage can be lost.**  The step of a graph declares storage of its output, and the
asset in the graph has none, as the graph is built from another handle to it.  And a terminal declares
storage, and the asset in the graph has none, as another terminal has lineage. -/
theorem exists_lost_storage :
    ((Lost.session Late.copy).Reachable ∧
      (∀ a ∈ [Late.clean], (Lost.session Late.copy).Offers (.asset a)) ∧
      (Lost.session Late.copy).graph [Late.clean] = .ok (Lost.graph Late.copy) ∧
      ∃ t ∈ (Lost.graph Late.copy).steps, t.output.storage.isSome ∧
        ∃ x, (Lost.graph Late.copy).asset? t.output.address = some x ∧ x.storage = none) ∧
    (Late.session Late.copy).Reachable ∧
      (∀ a ∈ Lost.both, (Late.session Late.copy).Offers (.asset a)) ∧
      (Late.session Late.copy).graph Lost.both = .ok (Lost.bothGraph Late.copy) ∧
      ∃ a ∈ Lost.both, a.storage.isSome ∧
        ∃ x, (Lost.bothGraph Late.copy).asset? a.address = some x ∧ x.storage = none := by
  have hfirst : ∀ a ∈ [Late.clean], (Lost.session Late.copy).Offers (.asset a) := by
    intro a ha
    obtain rfl := List.mem_singleton.1 ha
    exact .of_item? "clean" rfl
  refine ⟨⟨Lost.reachable rfl, hfirst, Lost.graph_eq _, _, .head _, rfl, Late.clean, rfl, rfl⟩,
    Late.reachable rfl, Lost.offers_both _, Lost.bothGraph_eq _, Lost.volume, .tail _ (.head _), rfl,
    Late.clean, rfl, rfl⟩

end Session

end Provenance
