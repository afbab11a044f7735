import Provenance.Proofs.Contest
import Provenance.Proofs.Graph.Sound
import Provenance.Proofs.Session

/-!
# Which steps are alive

A step is alive if something in use leads back to it.  The catalog finds these steps in one sweep from
the newest step to the oldest, which is enough since the inputs of a step come from older ones
(`Listed`): **what is alive is what the roots lead back to** (`mem_alive_iff`).  So it depends on the
roots as a set, it grows with them, and it is closed under where inputs come from.

A client cannot bring a dead step back.  Whatever it can get hold of leads to steps that are alive
already (`Offers.subset_alive`), which for a graph rests on what a survey follows: handles whose steps
are alive (`Survey.Met.alive`).  So after any move nothing is alive that was not alive before, but for a
new step (`alive_of_keep`, `alive_of_drop`, `alive_of_bind`).
-/

namespace Provenance

universe u

open Relation (ReflTransGen)

namespace Catalog

variable {c : Catalog}

/-- An input of a step comes from another step. -/
def Parent (c : Catalog) (a b : StepId) : Prop := ∃ s ∈ c.steps, s.id = a ∧ b ∈ s.parents

/-- The steps of a catalog are listed by descending numbers, their inputs come from steps with smaller
ones, their outputs are bare, and the last steps of the declarations are listed along with them. -/
structure Listed (c : Catalog) : Prop where
  ids : c.steps.Pairwise fun s t => t.id < s.id
  numbered : ∀ s ∈ c.steps, s.id ≤ c.steps.length
  parents : ∀ s ∈ c.steps, ∀ p ∈ s.parents, p < s.id
  bare : ∀ s ∈ c.steps, s.output.lineage = none
  latest : c.latest = c.steps.map fun s => (s.output.declaration, s.id)

theorem listed_empty : empty.Listed := by
  constructor <;> simp [empty]

/-- A step that is declared last has the greatest number. -/
theorem Listed.bind (h : c.Listed) {d : Draft} (hroots : ∀ p ∈ d.roots, p ≤ c.steps.length)
    (target : Asset) (replaces : Bool) : (c.bind d target replaces).2.Listed where
  ids := List.pairwise_cons.2 ⟨fun s hs => Nat.lt_succ_of_le (h.numbered s hs), h.ids⟩
  numbered := List.forall_mem_cons.2
    ⟨Nat.le_refl _, fun s hs => Nat.le_succ_of_le (h.numbered s hs)⟩
  parents := List.forall_mem_cons.2 ⟨fun p hp => Nat.lt_succ_of_le (hroots p hp), h.parents⟩
  bare := List.forall_mem_cons.2 ⟨rfl, h.bare⟩
  latest := by
    show (target.declaration, c.steps.length + 1) :: c.latest = _
    rw [h.latest]
    rfl

/-- A step is found under its number. -/
theorem Listed.step?_eq_some_iff (h : c.Listed) {id : StepId} {s : Step} :
    c.step? id = some s ↔ s ∈ c.steps ∧ s.id = id := by
  have hids : (c.steps.map (·.id)).Nodup := List.Pairwise.map _ (fun _ _ => Nat.ne_of_gt) h.ids
  exact Graph.find?_eq_some_iff hids

/-! ## The sweep -/

/-- What is reached once the newest step is looked at. -/
theorem mem_swept_iff {s : Step} {reached : List StepId} {x : StepId} :
    x ∈ (if s.id ∈ reached then s.parents ++ reached else reached) ↔
      x ∈ reached ∨ s.id ∈ reached ∧ x ∈ s.parents := by
  split
  · rename_i hreached
    rw [List.mem_append, or_comm]
    exact or_congr_right (and_iff_right hreached).symm
  · rename_i hnot
    exact (or_iff_left fun h => hnot h.1).symm

/-- **The sweep finds what the roots lead back to.** -/
theorem mem_sweep_iff {steps : List Step} (hids : steps.Pairwise fun s t => t.id < s.id)
    (hparents : ∀ s ∈ steps, ∀ p ∈ s.parents, p < s.id) {reached : List StepId} {x : StepId} :
    x ∈ sweep reached steps ↔
      ∃ r ∈ reached, ReflTransGen (fun a b => ∃ s ∈ steps, s.id = a ∧ b ∈ s.parents) r x := by
  induction steps generalizing reached with
  | nil =>
    constructor
    · exact fun h => ⟨x, h, .refl⟩
    · rintro ⟨r, hr, hrx⟩
      rcases ReflTransGen.cases_head hrx with rfl | ⟨y, ⟨s, hs, -⟩, -⟩
      · exact hr
      · exact absurd hs List.not_mem_nil
  | cons s older ih =>
    obtain ⟨hnewer, holder⟩ := List.pairwise_cons.1 hids
    have hbefore : ∀ o ∈ older, ∀ p ∈ o.parents, p < o.id :=
      fun o ho => hparents o (List.mem_cons_of_mem _ ho)
    unfold sweep
    rw [ih holder hbefore]
    constructor
    · rintro ⟨r, hr, hrx⟩
      have hmore : ReflTransGen (fun a b => ∃ t ∈ s :: older, t.id = a ∧ b ∈ t.parents) r x := by
        refine ReflTransGen.mono ?_ _ _ hrx
        rintro a b ⟨t, ht, hab⟩
        exact ⟨t, List.mem_cons_of_mem _ ht, hab⟩
      rcases mem_swept_iff.1 hr with hr | ⟨hreached, hr⟩
      · exact ⟨r, hr, hmore⟩
      · exact ⟨s.id, hreached, hmore.head ⟨s, List.mem_cons_self, rfl, hr⟩⟩
    · rintro ⟨r, hr, hrx⟩
      clear ih
      induction hrx with
      | refl => exact ⟨r, mem_swept_iff.2 (.inl hr), .refl⟩
      | @tail y z _ hyz hpath =>
        obtain ⟨r', hr', hy⟩ := hpath
        obtain ⟨t, ht, rfl, hz⟩ := hyz
        rcases List.mem_cons.1 ht with rfl | ht
        · -- no older step leads back to the newest one, so it has been reached from the start
          have hreached : t.id ∈ reached := by
            rcases ReflTransGen.cases_tail hy with heq | ⟨w, -, o, ho, -, hw⟩
            · rw [heq]
              exact (mem_swept_iff.1 hr').elim id fun h => heq ▸ h.1
            · exact absurd (hbefore o ho t.id hw) (Nat.lt_asymm (hnewer o ho))
          exact ⟨z, mem_swept_iff.2 (.inr ⟨hreached, hz⟩), .refl⟩
        · exact ⟨r', hr', hy.tail ⟨t, ht, rfl, hz⟩⟩

/-- **What is alive is what the roots lead back to.** -/
theorem Listed.mem_alive_iff (h : c.Listed) {roots : List StepId} {x : StepId} :
    x ∈ c.alive roots ↔ ∃ r ∈ roots, ReflTransGen c.Parent r x := mem_sweep_iff h.ids h.parents

/-- What is alive is closed under where inputs come from. -/
theorem Listed.parents_alive (h : c.Listed) {roots : List StepId} {s : Step} (hs : s ∈ c.steps)
    (halive : s.id ∈ c.alive roots) : ∀ p ∈ s.parents, p ∈ c.alive roots := by
  intro p hp
  obtain ⟨r, hr, hrs⟩ := h.mem_alive_iff.1 halive
  exact h.mem_alive_iff.2 ⟨r, hr, hrs.tail ⟨s, hs, rfl, hp⟩⟩

/-- Roots that are alive already bring nothing to life. -/
theorem Listed.alive_subset (h : c.Listed) {roots roots' : List StepId}
    (hroots : ∀ r ∈ roots', r ∈ c.alive roots) {x : StepId} (hx : x ∈ c.alive roots') :
    x ∈ c.alive roots := by
  obtain ⟨r, hr, hrx⟩ := h.mem_alive_iff.1 hx
  obtain ⟨q, hq, hqr⟩ := h.mem_alive_iff.1 (hroots r hr)
  exact h.mem_alive_iff.2 ⟨q, hq, hqr.trans hrx⟩

theorem Listed.mem_alive_of_mem (h : c.Listed) {roots : List StepId} {r : StepId} (hr : r ∈ roots) :
    r ∈ c.alive roots := h.mem_alive_iff.2 ⟨r, hr, .refl⟩

theorem Listed.alive_congr (h : c.Listed) {roots roots' : List StepId}
    (hroots : ∀ r, r ∈ roots ↔ r ∈ roots') {x : StepId} : x ∈ c.alive roots ↔ x ∈ c.alive roots' := by
  simp only [h.mem_alive_iff, hroots]

/-- Which step a handle names depends on what is alive as a set. -/
theorem producer?_congr {alive alive' : List StepId} (h : ∀ x, x ∈ alive ↔ x ∈ alive') :
    c.producer? alive = c.producer? alive' := by
  funext a
  simp only [producer?, h]

/-- A handle whose lineage is alive names a step that is alive. -/
theorem alive_of_producer? {alive : List StepId} {a : Asset} {s : Step}
    (ha : ∀ p, a.lineage = some p → p ∈ alive) (hs : c.producer? alive a = some s) : s.id ∈ alive := by
  obtain ⟨id, hid, hstep⟩ := Option.bind_eq_some_iff.1 hs
  rw [id_of_step? hstep]
  rcases Option.or_eq_some_iff.1 hid with hlast | ⟨-, hlineage⟩
  · obtain ⟨-, halive⟩ := Option.filter_eq_some_iff.1 hlast
    exact of_decide_eq_true halive
  · exact ha id hlineage

/-- After a step is declared, nothing else is alive that was not alive before. -/
theorem Listed.alive_bind (h : c.Listed) {d : Draft} {roots roots' : List StepId}
    (hroots : ∀ p ∈ d.roots, p ∈ c.alive roots) (hbound : ∀ p ∈ d.roots, p ≤ c.steps.length)
    (target : Asset) (replaces : Bool)
    (hroots' : ∀ r ∈ roots', r = c.steps.length + 1 ∨ r ∈ c.alive roots) {x : StepId}
    (hx : x ∈ (c.bind d target replaces).2.alive roots') :
    x = c.steps.length + 1 ∨ x ∈ c.alive roots := by
  obtain ⟨r, hr, hrx⟩ := (h.bind hbound target replaces).mem_alive_iff.1 hx
  clear hx
  induction hrx with
  | refl => exact hroots' _ hr
  | tail _ hyz ih =>
    obtain ⟨s, hs, rfl, hz⟩ := hyz
    rcases List.mem_cons.1 hs with rfl | hs
    · exact .inr (hroots _ hz)
    · have hne : s.id ≠ c.steps.length + 1 := Nat.ne_of_lt (Nat.lt_succ_of_le (h.numbered s hs))
      exact .inr (h.parents_alive hs (ih.resolve_left hne) _ hz)

end Catalog

/-! ## What a survey follows -/

/-- The handles that a survey follows lead to steps that are alive. -/
theorem Survey.Met.alive {c : Catalog} (hc : c.Listed) {roots : List StepId} {terminals : List Asset}
    (hterminals : ∀ t ∈ terminals, ∀ p, t.lineage = some p → p ∈ c.alive roots) {a : Asset}
    (h : Met (c.producer? (c.alive roots)) terminals a) :
    ∀ p, a.lineage = some p → p ∈ c.alive roots := by
  induction h with
  | terminal ha => exact hterminals _ ha
  | @input a s i _ hs hi ih =>
    intro p hp
    refine hc.parents_alive (Catalog.mem_of_producer? hs) (Catalog.alive_of_producer? ih hs) p ?_
    exact List.mem_filterMap.2 ⟨i, hi, hp⟩

/-- **The steps of a graph are alive**, where the lineage of its terminals is. -/
theorem Graph.alive_of_mem_steps {home : ℕ → Address} {c : Catalog} (hc : c.Sound home)
    (hlisted : c.Listed) {roots : List StepId} {terminals : List Asset}
    (hknown : ∀ t ∈ terminals, c.Knows home t)
    (hterminals : ∀ t ∈ terminals, ∀ p, t.lineage = some p → p ∈ c.alive roots) {g : Graph}
    (h : ofTerminals c (c.alive roots) terminals = .ok g) : ∀ s ∈ g.steps, s.id ∈ c.alive roots := by
  intro s hs
  obtain ⟨v, hv, hshows⟩ := shows_of_ofTerminals hc hknown h
  have hsettled := Survey.settled_of_ofTerminals hv
  obtain ⟨u, hu, rfl⟩ := Survey.ofTerminals_eq_ok_iff.1 hv
  obtain ⟨done, hpursued⟩ := Survey.pursued_of_follow hu
  obtain ⟨x, hx⟩ := (Order.mem_steps hsettled.consistent).1 ((Order.mem_of_ofSurvey hshows.steps).1 hs)
  obtain ⟨-, a, ha, -, hname⟩ :=
    hpursued.standing x s (Survey.lookup_prune_iff.1 (hsettled.lookup_iff.2 hx)).2
  have hmet := hpursued.met a (List.mem_append_left _ ha)
  exact Catalog.alive_of_producer? (hmet.alive hlisted hterminals) hname

/-- The assets of a graph have no lineage. -/
theorem Graph.lineage_of_ofTerminals {home : ℕ → Address} {c : Catalog} (hc : c.Sound home)
    {alive : List StepId} {terminals : List Asset} (hknown : ∀ t ∈ terminals, c.Knows home t) {g : Graph}
    (h : ofTerminals c alive terminals = .ok g) : ∀ a ∈ g.assets, a.lineage = none := by
  intro a ha
  obtain ⟨v, -, hshows⟩ := shows_of_ofTerminals hc hknown h
  rw [hshows.assets] at ha
  obtain ⟨x, -, rfl⟩ := (mem_foldl_gather _ ha).resolve_left (by simp)
  unfold handle
  cases v.handles.lookup x with
  | none => rfl
  | some known => rfl

/-! ## What a client holds -/

variable {α : Type u}

/-- The assets of a graph have no lineage. -/
def Item.Bare : Item α → Prop
  | .graph g => ∀ a ∈ g.assets, a.lineage = none
  | _ => True

/-- The steps that a value leads to are numbered. -/
theorem Item.Known.le_length {home : ℕ → Address} {c : Catalog} (hc : c.Sound home) {item : Item α}
    (h : item.Known home c) : ∀ r ∈ item.roots, r ≤ c.steps.length := by
  have hstep : ∀ {id s}, c.step? id = some s → id ≤ c.steps.length := by
    intro id s hs
    rw [← Catalog.id_of_step? hs]
    exact hc.numbered s (Catalog.mem_of_step? hs)
  have hlineage : ∀ {a : Asset} {r}, c.Knows home a → a.lineage = some r → r ≤ c.steps.length := by
    intro a r ha hr
    obtain ⟨s, hs, -⟩ := ha.lineage r hr
    exact hstep hs
  intro r hr
  cases item with
  | asset a => exact hlineage h (Option.mem_toList.1 hr)
  | join j =>
    obtain ⟨i, hi, hr⟩ := List.mem_filterMap.1 hr
    exact hlineage (h i hi) hr
  | draft d =>
    obtain ⟨i, hi, hr⟩ := List.mem_filterMap.1 hr
    exact hlineage (h.2 i hi) hr
  | graph g =>
    obtain ⟨s, hs, rfl⟩ := List.mem_map.1 hr
    exact hstep (h.2 s hs)
  | task t => exact absurd hr List.not_mem_nil
  | other x => exact absurd hr List.not_mem_nil

namespace Session

variable {s : Session α}

/-- **In every session that a client can reach, the catalog lists its steps in order.** -/
theorem Reachable.listed (h : s.Reachable) : s.catalog.Listed := by
  induction h with
  | start => exact Catalog.listed_empty
  | declare name location key _ ih => exact ⟨ih.ids, ih.numbered, ih.parents, ih.bare, ih.latest⟩
  | @put s s' d target a key hs hd _ hput ih =>
    obtain ⟨home, hsound⟩ := hs.sound
    obtain ⟨-, rfl⟩ := put_eq_ok hput
    exact ih.bind ((hd.known hsound).le_length hsound.catalog) target false
  | @replace s d target key hs hd _ ih =>
    obtain ⟨home, hsound⟩ := hs.sound
    exact ih.bind ((hd.known hsound).le_length hsound.catalog) target true
  | keep key _ _ ih => exact ih
  | drop key _ ih => exact ih

/-- The assets of a graph have no lineage, also when the graph is kept. -/
theorem Offers.bare {home : ℕ → Address} (hs : s.Sound home) (hheld : ∀ e ∈ s.held, e.2.Bare)
    {item : Item α} (h : s.Offers item) : item.Bare := by
  cases h with
  | held hmem => exact hheld _ hmem
  | graph hterminals hg =>
    exact Graph.lineage_of_ofTerminals hs.catalog (fun t ht => (hterminals t ht).known hs) hg
  | _ => trivial

theorem Reachable.bare (h : s.Reachable) : ∀ e ∈ s.held, e.2.Bare := by
  induction h with
  | start => exact fun e he => absurd he List.not_mem_nil
  | declare name location key _ ih =>
    intro e he
    rcases mem_assign he with rfl | he
    · trivial
    · exact ih e he
  | put key _ _ _ hput ih =>
    obtain ⟨-, rfl⟩ := put_eq_ok hput
    intro e he
    rcases mem_assign he with rfl | he
    · trivial
    · exact ih e he
  | replace key _ _ _ ih =>
    intro e he
    rcases mem_assign he with rfl | he
    · trivial
    · exact ih e he
  | keep key hs hitem ih =>
    obtain ⟨home, hsound⟩ := hs.sound
    intro e he
    rcases mem_assign he with rfl | he
    · exact hitem.bare hsound ih
    · exact ih e he
  | drop key _ ih => exact fun e he => ih e (List.mem_of_mem_filter he)

/-- Steps that are alive already bring nothing to life when they are in use as well. -/
theorem mem_alive_extra_iff (hlisted : s.catalog.Listed) {extra : List StepId}
    (hextra : ∀ r ∈ extra, r ∈ s.alive []) {x : StepId} : x ∈ s.alive extra ↔ x ∈ s.alive [] := by
  constructor
  · refine hlisted.alive_subset fun r hr => ?_
    rcases List.mem_append.1 hr with hr | hr
    · exact hextra r hr
    · exact hlisted.mem_alive_of_mem hr
  · exact hlisted.alive_subset fun r hr => hlisted.mem_alive_of_mem (List.mem_append_right _ hr)

/-- A graph that is built of handles whose lineage is alive holds steps that are alive. -/
theorem alive_of_graph {home : ℕ → Address} (hs : s.Sound home) (hlisted : s.catalog.Listed)
    {terminals : List Asset} (hknown : ∀ a ∈ terminals, s.catalog.Knows home a)
    (hlineage : ∀ a ∈ terminals, ∀ r ∈ a.lineage.toList, r ∈ s.alive []) {g : Graph}
    (h : s.graph terminals = .ok g) : ∀ t ∈ g.steps, t.id ∈ s.alive [] := by
  have hextra : ∀ r ∈ terminals.filterMap (·.lineage), r ∈ s.alive [] := by
    intro r hr
    obtain ⟨a, ha, hr⟩ := List.mem_filterMap.1 hr
    exact hlineage a ha r (Option.mem_toList.2 hr)
  have hterminals : ∀ a ∈ terminals, ∀ p, a.lineage = some p →
      p ∈ s.alive (terminals.filterMap (·.lineage)) := fun a ha p hp =>
    hlisted.mem_alive_of_mem (List.mem_append_left _ (List.mem_filterMap.2 ⟨a, ha, hp⟩))
  exact fun t ht => (mem_alive_extra_iff hlisted hextra).1
    (Graph.alive_of_mem_steps hs.catalog hlisted hknown hterminals h t ht)

/-- **Whatever a client can get hold of leads to steps that are alive.** -/
theorem Offers.subset_alive (hs : s.Reachable) {item : Item α} (h : s.Offers item) :
    ∀ r ∈ item.roots, r ∈ s.alive [] := by
  obtain ⟨home, hsound⟩ := hs.sound
  have hlisted := hs.listed
  have hinput : ∀ {t : Step} {i : String × Asset}, t ∈ s.catalog.steps → t.id ∈ s.alive [] →
      i ∈ t.inputs → ∀ r ∈ i.2.lineage.toList, r ∈ s.alive [] := by
    intro t i ht halive hi r hr
    exact hlisted.parents_alive ht halive r (List.mem_filterMap.2 ⟨i, hi, Option.mem_toList.1 hr⟩)
  have hbare : ∀ {a : Asset}, a.lineage = none → ∀ r ∈ a.lineage.toList, r ∈ s.alive [] := by
    intro a ha r hr
    rw [ha] at hr
    exact absurd hr (by simp)
  induction h with
  | held hmem =>
    exact fun r hr => hlisted.mem_alive_of_mem (List.mem_flatMap.2 ⟨_, hmem, hr⟩)
  | task t => exact fun r hr => absurd hr List.not_mem_nil
  | other x => exact fun r hr => absurd hr List.not_mem_nil
  | relabel title description _ ih => exact ih
  | store spec _ ih => exact ih
  | input _ hstep hi ih =>
    obtain ⟨id, hlineage, hid⟩ := Option.bind_eq_some_iff.1 hstep
    refine hinput (Catalog.mem_of_step? hid) ?_ hi
    rw [Catalog.id_of_step? hid]
    exact ih id (Option.mem_toList.2 hlineage)
  | output _ hstep _ =>
    obtain ⟨id, -, hid⟩ := Option.bind_eq_some_iff.1 hstep
    exact hbare (hlisted.bare _ (Catalog.mem_of_step? hid))
  | single _ hd ih =>
    intro r hr
    obtain ⟨i, hi, hr⟩ := List.mem_filterMap.1 hr
    refine ih r (Option.mem_toList.2 ?_)
    rwa [← (bound_of_transform hd).2 i hi]
  | join _ hj ih =>
    intro r hr
    obtain ⟨i, hi, hr⟩ := List.mem_filterMap.1 hr
    rw [joinSources hj] at hi
    exact ih i hi r (Option.mem_toList.2 hr)
  | joined _ hd ih =>
    intro r hr
    obtain ⟨i, hi, hr⟩ := List.mem_filterMap.1 hr
    exact ih r (List.mem_filterMap.2 ⟨i, (Join.bound_of_transform hd).2 i hi, hr⟩)
  | graph hterminals hg ih =>
    intro r hr
    obtain ⟨t, ht, rfl⟩ := List.mem_map.1 hr
    exact alive_of_graph hsound hlisted (fun a ha => (hterminals a ha).known hsound) ih hg t ht
  | graphAsset hg ha _ => exact hbare (hg.bare hsound hs.bare _ ha)
  | graphInput hg ht hi ih =>
    have hstep := (hg.known hsound).2 _ ht
    exact hinput (Catalog.mem_of_step? hstep) (ih _ (List.mem_map.2 ⟨_, ht, rfl⟩)) hi
  | graphOutput hg ht _ =>
    exact hbare (hlisted.bare _ (Catalog.mem_of_step? ((hg.known hsound).2 _ ht)))

/-! ## Dead steps stay dead -/

/-- Keeping what can be got hold of brings nothing to life. -/
theorem alive_of_keep (hlisted : s.catalog.Listed) {key : String} {item : Item α}
    (hitem : ∀ r ∈ item.roots, r ∈ s.alive []) {x : StepId} (hx : x ∈ (s.keep key item).alive []) :
    x ∈ s.alive [] := by
  refine hlisted.alive_subset (fun r hr => ?_) hx
  obtain ⟨e, he, hr⟩ := List.mem_flatMap.1 hr
  rcases mem_assign he with rfl | he
  · exact hitem r hr
  · exact hlisted.mem_alive_of_mem (List.mem_flatMap.2 ⟨e, he, hr⟩)

/-- Dropping brings nothing to life. -/
theorem alive_of_drop (hlisted : s.catalog.Listed) {key : String} {x : StepId}
    (hx : x ∈ (s.drop key).alive []) : x ∈ s.alive [] := by
  refine hlisted.alive_subset (fun r hr => ?_) hx
  obtain ⟨e, he, hr⟩ := List.mem_flatMap.1 hr
  exact hlisted.mem_alive_of_mem (List.mem_flatMap.2 ⟨e, List.mem_of_mem_filter he, hr⟩)

/-- Ending a draft brings nothing to life but the new step. -/
theorem alive_of_bind (hs : s.Reachable) {d : Draft} (hd : s.Offers (.draft d)) {target : Asset}
    {replaces : Bool} {key : String} {x : StepId}
    (hx : x ∈ (({ s with catalog := (s.catalog.bind d target replaces).2 } : Session α).keep key
      (.asset (s.catalog.bind d target replaces).1)).alive []) :
    x = s.catalog.steps.length + 1 ∨ x ∈ s.alive [] := by
  obtain ⟨home, hsound⟩ := hs.sound
  have hbound := (hd.known hsound).le_length hsound.catalog
  refine hs.listed.alive_bind (hd.subset_alive hs) hbound target replaces (fun r hr => ?_) hx
  obtain ⟨e, he, hr⟩ := List.mem_flatMap.1 hr
  rcases mem_assign he with rfl | he
  · exact .inl (List.mem_singleton.1 hr)
  · exact .inr (hs.listed.mem_alive_of_mem (List.mem_flatMap.2 ⟨e, he, hr⟩))

end Session

end Provenance
