import Provenance.Proofs.Infra.Compile

/-!
# Which graphs are compiled, and into what

A run over the steps of a graph can fail in three ways: the provider cannot express some storage, it cannot
express a step with what starts and watches it, or two things of one name were made for different origins.
None of this depends on the order of the steps.  So a graph is compiled exactly if it is accepted
(`Provider.Accepts`), which is said of the graph alone and can be decided without compiling it; the check in
the end never fails (`Makes.exists_of_dependsOn`).

What the plan then shows can be said of the graph as well.  Storage is told apart by its name and its origin,
and what is put in for a step stands together in the log of the run, so under any other name the plan shows
the last thing that is put in for the last step that has something of that name (`Provider.lastPiece?`).  The
order of the steps does not matter for that as long as no two steps of one origin have something of one name
(`Provider.Apart`).

* `Plan.exists_ofGraph_iff`: **a graph is compiled exactly if it is accepted.**
* `Plan.get?_eq_some_iff`: **what the plan shows.**
-/

namespace Provenance

namespace Provider

variable {p : Provider} {g : Graph} {s : Step} {r q : Resource} {id : ResourceId}

/-- The provider can express the graph, and makes nothing of one name for different origins. -/
structure Accepts (p : Provider) (g : Graph) : Prop where
  storage : ∀ a, p.Expresses g a
  steps : ∀ s ∈ g.steps, ∃ rs, p.pieces? g s = some rs
  names : ∀ r q, p.Makes g r → p.Makes g q → q.id = r.id → q.origin = r.origin

/-- No two steps of one origin have something of one name. -/
def Apart (p : Provider) (g : Graph) : Prop :=
  ∀ s ∈ g.steps, ∀ t ∈ g.steps, ∀ rs qs, p.pieces? g s = some rs → p.pieces? g t = some qs →
    ∀ r ∈ rs, ∀ q ∈ qs, q.id = r.id → t.origin = s.origin → t = s

/-- The last thing of a name that is put in for some steps. -/
def lastPiece? (p : Provider) (g : Graph) (steps : List Step) (id : ResourceId) : Option Resource :=
  steps.reverse.findSome? fun s => (p.pieces? g s).bind fun rs => rs.reverse.find? (·.id == id)

/-- All that the provider makes of a graph. -/
def products (p : Provider) (g : Graph) : List Resource :=
  g.assets.filterMap (fun x => p.storedAt? g x.address) ++
    g.steps.flatMap fun s => (p.pieces? g s).toList.flatten

theorem mem_products_iff : r ∈ p.products g ↔ p.Makes g r := by
  unfold products Makes
  rw [List.mem_append, List.mem_filterMap, List.mem_flatMap]
  refine or_congr ⟨?_, ?_⟩ (exists_congr fun s => and_congr_right fun _ => ?_)
  · rintro ⟨x, -, hr⟩
    exact ⟨x.address, hr⟩
  · rintro ⟨a, hr⟩
    obtain ⟨x, hx, rfl, -⟩ := exists_of_storedAt? hr
    exact ⟨x, hx, hr⟩
  · cases p.pieces? g s <;> simp

theorem expresses_iff {a : Address} : p.Expresses g a ↔
    (((g.asset? a).bind (·.storage)).isSome → (p.storedAt? g a).isSome) := by
  unfold Expresses storedAt?
  cases g.asset? a <;> simp

instance {a : Address} : Decidable (p.Expresses g a) := decidable_of_iff _ expresses_iff.symm

/-- Whether a graph is accepted can be seen from its assets, its steps and what is made of them.  Origins
are compared before names, which can have digests in them. -/
theorem accepts_iff : p.Accepts g ↔ (∀ x ∈ g.assets, p.Expresses g x.address) ∧
    (∀ s ∈ g.steps, (p.pieces? g s).isSome) ∧
    ∀ r ∈ p.products g, ∀ q ∈ p.products g, q.origin = r.origin ∨ q.id ≠ r.id := by
  simp only [mem_products_iff, Option.isSome_iff_exists]
  constructor
  · rintro ⟨hstorage, hsteps, hnames⟩
    exact ⟨fun x _ => hstorage x.address, hsteps, fun r hr q hq =>
      or_iff_not_imp_right.2 fun hid => hnames r q hr hq (not_not.1 hid)⟩
  · rintro ⟨hstorage, hsteps, hnames⟩
    refine ⟨fun a x hx => ?_, hsteps, fun r q hr hq hid =>
      (hnames r hr q hq).resolve_right (not_not.2 hid)⟩
    obtain rfl := address_of_asset? hx
    exact hstorage x (List.mem_of_find?_eq_some hx) x hx

instance : Decidable (p.Accepts g) := decidable_of_iff _ accepts_iff.symm

/-- Steps that differ in their origins are apart. -/
theorem apart_of_injOn_origin (h : Set.InjOn Step.origin {s | s ∈ g.steps}) : p.Apart g :=
  fun _ hs _ ht _ _ _ _ _ _ _ _ _ horigin => h ht hs horigin

/-- Two steps are apart if nothing that is put in for one has the name of anything that is put in for the
other one. -/
theorem apart_of_pair {t : Step} (hsteps : g.steps = [s, t]) (h : ∀ rs ∈ p.pieces? g s,
    ∀ qs ∈ p.pieces? g t, ∀ r ∈ rs, ∀ q ∈ qs, q.id ≠ r.id) : p.Apart g := by
  intro u hu u' hu' rs qs hrs hqs r hr q hq hid _
  rw [hsteps] at hu hu'
  rcases List.mem_pair.1 hu with rfl | rfl <;> rcases List.mem_pair.1 hu' with rfl | rfl
  · rfl
  · exact absurd hid (h rs hrs qs hqs r hr q hq)
  · exact absurd hid.symm (h qs hqs rs hrs q hq r hr)
  · rfl

theorem exists_of_lastPiece? {steps : List Step} (h : p.lastPiece? g steps id = some r) :
    ∃ s ∈ steps, ∃ rs, p.pieces? g s = some rs ∧ r ∈ rs ∧ r.id = id := by
  obtain ⟨s, hs, hr⟩ := List.exists_of_findSome?_eq_some h
  obtain ⟨rs, hrs, hr⟩ := Option.bind_eq_some_iff.1 hr
  have hid := List.find?_some hr
  exact ⟨s, List.mem_reverse.1 hs, rs, hrs, List.mem_reverse.1 (List.mem_of_find?_eq_some hr),
    eq_of_beq hid⟩

/-- Something of a name is the last one. -/
theorem exists_lastPiece? {steps : List Step} {rs : List Resource} (hs : s ∈ steps)
    (hrs : p.pieces? g s = some rs) (hr : r ∈ rs) : ∃ q, p.lastPiece? g steps r.id = some q := by
  obtain ⟨q, hq⟩ := Option.isSome_iff_exists.1 (List.find?_isSome (p := (·.id == r.id)).2
    ⟨r, List.mem_reverse.2 hr, beq_self_eq_true _⟩)
  refine Option.isSome_iff_exists.1 (List.findSome?_isSome_iff.2 ⟨s, List.mem_reverse.2 hs, ?_⟩)
  rw [hrs, Option.bind_some, hq]
  rfl

/-- What is put in last for the last step is the last thing of its name. -/
theorem lastPiece?_append_singleton {steps : List Step} {rs : List Resource}
    (hrs : p.pieces? g s = some (rs ++ [r])) : p.lastPiece? g (steps ++ [s]) r.id = some r := by
  unfold lastPiece?
  rw [List.reverse_append, List.reverse_singleton, List.singleton_append, List.findSome?_cons, hrs,
    Option.bind_some, List.reverse_append, List.reverse_singleton, List.singleton_append, List.find?_cons,
    beq_self_eq_true]

/-- Where the steps are apart, the order of the steps does not matter for what is last. -/
theorem lastPiece?_eq_some_iff (haccepts : p.Accepts g) (hapart : p.Apart g) :
    p.lastPiece? g g.steps id = some r ↔
      ∃ s ∈ g.steps, ∃ rs, p.pieces? g s = some rs ∧ rs.reverse.find? (·.id == id) = some r := by
  constructor
  · intro h
    obtain ⟨s, hs, hr⟩ := List.exists_of_findSome?_eq_some h
    obtain ⟨rs, hrs, hr⟩ := Option.bind_eq_some_iff.1 hr
    exact ⟨s, List.mem_reverse.1 hs, rs, hrs, hr⟩
  · rintro ⟨s, hs, rs, hrs, hr⟩
    have hmem : r ∈ rs := List.mem_reverse.1 (List.mem_of_find?_eq_some hr)
    have hid : r.id = id := by
      have hid := List.find?_some hr
      exact eq_of_beq hid
    obtain ⟨q, hq⟩ := exists_lastPiece? hs hrs hmem
    rw [hid] at hq
    obtain ⟨t, ht, hfound⟩ := List.exists_of_findSome?_eq_some hq
    obtain ⟨qs, hqs, hfound⟩ := Option.bind_eq_some_iff.1 hfound
    have ht := List.mem_reverse.1 ht
    have hqmem : q ∈ qs := List.mem_reverse.1 (List.mem_of_find?_eq_some hfound)
    have hsame : q.id = r.id := by
      have hq := List.find?_some hfound
      exact (eq_of_beq hq).trans hid.symm
    have horigin := haccepts.names r q (.inr ⟨s, hs, rs, hrs, hmem⟩) (.inr ⟨t, ht, qs, hqs, hqmem⟩) hsame
    rw [origin_of_mem_pieces hqs hqmem, origin_of_mem_pieces hrs hmem] at horigin
    obtain rfl := hapart s hs t ht rs qs hrs hqs r hmem q hqmem hsame horigin
    obtain rfl := Option.some.inj (hrs.symm.trans hqs)
    rw [hq, ← hfound, hr]

/-! ## Dependencies -/

/-- The storage that a step is bound to is made of the graph. -/
theorem makes_of_mem_bindings {access : Access} {x : Asset}
    (h : (access, x, r) ∈ stored (p.bindings g s)) : p.Makes g r := by
  obtain ⟨a, -, hx, hr⟩ := mem_stored_bindings_iff.1 h
  exact .inl ⟨a, Option.bind_eq_some_iff.2 ⟨x, hx, hr⟩⟩

section

variable {made : Runner} (haccepts : p.Accepts g)

include haccepts

/-- What runs a step is made, and so are its access resources. -/
theorem Accepts.makes_of_runner? (hs : s ∈ g.steps) (hmade : p.runner? g s = some made) :
    p.Makes g (p.linked g s made) ∧ ∀ q ∈ made.access, p.Makes g (q.madeFor s.origin) := by
  obtain ⟨rs, hrs⟩ := haccepts.steps s hs
  obtain ⟨made', triggers, alerts, hmade', -, -, rfl⟩ := pieces?_eq_some_iff.1 hrs
  obtain rfl := Option.some.inj (hmade.symm.trans hmade')
  exact ⟨.inr ⟨s, hs, _, hrs, List.mem_cons_self⟩, fun q hq => .inr ⟨s, hs, _, hrs,
    List.mem_cons_of_mem _ (List.mem_append_left _ (List.mem_map_of_mem hq))⟩⟩

/-- What runs a step depends on what is made. -/
theorem Accepts.exists_of_linked (hp : p.Orderly) (hg : g.Sound) (hs : s ∈ g.steps)
    (hmade : p.runner? g s = some made) (hid : id ∈ (p.linked g s made).dependsOn.toList) :
    ∃ q, p.Makes g q ∧ q.id = id := by
  obtain ⟨_, hbare⟩ := hp.compute
  unfold linked at hid
  rw [Resource.mem_dependAll, Resource.mem_dependAll, Resource.mem_dependAll, Resource.dependsOn_madeFor,
    (hbare _ _ _ (runner?_eq_some_iff.1 hmade)).2.1] at hid
  rcases hid with hid | hid | hid | hid
  · obtain ⟨t, ht, -, made', hmade', rfl⟩ := (mem_parents_iff hg).1 hid
    exact ⟨_, (haccepts.makes_of_runner? ht hmade').1, id_linked⟩
  · obtain ⟨q, hq, rfl⟩ := List.mem_map.1 hid
    exact ⟨_, (haccepts.makes_of_runner? hs hmade).2 q hq, rfl⟩
  · obtain ⟨t, -, hid⟩ := List.mem_filterMap.1 hid
    obtain ⟨q, hq, rfl⟩ := Option.map_eq_some_iff.1 hid
    exact ⟨q, .inl ⟨_, hq⟩, rfl⟩
  · exact absurd hid List.not_mem_nil

/-- **Whatever is made depends on nothing but what is made.** -/
theorem Makes.exists_of_dependsOn (hp : p.Orderly) (hself : p.SelfContained) (hg : g.Sound)
    (h : p.Makes g r) (hid : id ∈ r.dependsOn.toList) : ∃ q, p.Makes g q ∧ q.id = id := by
  rcases h with ⟨a, hr⟩ | ⟨s, hs, rs, hrs, hr⟩
  · obtain ⟨x, -, -, hr⟩ := exists_of_storedAt? hr
    obtain ⟨spec, made, -, hmade, rfl⟩ := stored?_eq_some_iff.1 hr
    rw [Resource.dependsOn_madeFor, hself.storage _ _ _ hmade] at hid
    exact absurd hid List.not_mem_nil
  · obtain ⟨made, triggers, alerts, hmade, htriggers, halerts, rfl⟩ := pieces?_eq_some_iff.1 hrs
    obtain ⟨hlinked, haccess⟩ := haccepts.makes_of_runner? hs hmade
    rw [List.mem_cons, List.mem_append, List.mem_append] at hr
    rcases hr with rfl | hr | hr
    · exact haccepts.exists_of_linked hp hg hs hmade hid
    · obtain ⟨q, hq, rfl⟩ := List.mem_map.1 hr
      rcases hself.access _ _ _ (runner?_eq_some_iff.1 hmade) q hq id hid with
        ⟨e, he, rfl⟩ | ⟨q', hq', rfl⟩
      · exact ⟨_, makes_of_mem_bindings he, rfl⟩
      · exact ⟨_, haccess q' hq', rfl⟩
    · rw [dependsOn_of_starts hp (hr.imp (starts_of_mem_triggers? htriggers)
        (watches_of_mem_alerts? halerts))] at hid
      exact ⟨_, hlinked, id_linked.trans (List.mem_singleton.1 hid).symm⟩

end

end Provider

/-! ## Runs of an accepted graph -/

namespace Compilation

variable {p : Provider} {g : Graph} {c : Compilation} {s : Step} {done rest : List Step}
  {log rs : List Resource} {a : Address}

/-- Resources can be put in if those of one name are of one origin. -/
theorem exists_insertAll (h : c.plan.Lists log)
    (hnames : ∀ r ∈ rs.reverse ++ log, ∀ q ∈ rs.reverse ++ log, q.id = r.id → q.origin = r.origin) :
    ∃ c', rs.foldlM insert c = .ok c' := by
  induction rs generalizing c log with
  | nil => exact ⟨c, rfl⟩
  | cons r rs ih =>
    rw [List.reverse_cons, List.append_assoc] at hnames
    have hr : r ∈ rs.reverse ++ ([r] ++ log) := List.mem_append_right _ List.mem_cons_self
    obtain ⟨plan, hplan⟩ := h.exists_insert fun q hq =>
      hnames r hr q (List.mem_append_right _ (List.mem_cons_of_mem _ hq))
    obtain ⟨c', hc'⟩ := ih (c := { c with plan }) (h.insert hplan) hnames
    exact ⟨c', bind_eq_ok_iff.2 ⟨_, insert_eq_ok_iff.2 ⟨plan, hplan, rfl⟩, hc'⟩⟩

variable (haccepts : p.Accepts g)

include haccepts

theorem Follows.exists_insertAll (h : Follows p g done log c) (hrs : ∀ r ∈ rs, p.Makes g r) :
    ∃ c', rs.foldlM insert c = .ok c' := by
  have hmakes : ∀ r ∈ rs.reverse ++ log, p.Makes g r := by
    intro r hr
    rcases List.mem_append.1 hr with hr | hr
    · exact hrs r (List.mem_reverse.1 hr)
    · exact h.logged.makes hr
  exact Compilation.exists_insertAll h.plan fun r hr q hq =>
    haccepts.names r q (hmakes r hr) (hmakes q hq)

theorem Follows.exists_ensureStore (h : Follows p g done log c) (a : Address) :
    ∃ c', Compilation.ensureStore p Hooks.none g c a = .ok c' := by
  by_cases hlooked : (c.stores.lookup a).isSome
  · refine ⟨c, ?_⟩
    unfold Compilation.ensureStore
    rw [if_pos hlooked]
  · obtain ⟨c₁, hc₁⟩ := h.exists_insertAll haccepts fun r hr => .inl ⟨a, Option.mem_toList.1 hr⟩
    exact ⟨_, (ensureStore_eq_ok_iff hlooked).2 ⟨haccepts.storage a, c₁, hc₁, rfl⟩⟩

theorem Follows.exists_ensureAll (h : Follows p g done log c) (as : List Address) :
    ∃ c', as.foldlM (Compilation.ensureStore p Hooks.none g) c = .ok c' := by
  induction as generalizing c log with
  | nil => exact ⟨c, rfl⟩
  | cons a as ih =>
    obtain ⟨c₁, hc₁⟩ := h.exists_ensureStore haccepts a
    obtain ⟨log₁, -, h₁, -⟩ := h.ensureStore hc₁
    obtain ⟨c', hc'⟩ := ih h₁
    exact ⟨c', bind_eq_ok_iff.2 ⟨c₁, hc₁, hc'⟩⟩

variable (hp : p.Orderly) (hg : g.Sound) (hassets : (g.assets.map (·.address)).Nodup)
  (hdigest : Set.InjOn Naming.digest g.hashed)

include hp hg hassets hdigest

/-- **One step of a run does not fail.** -/
theorem Follows.exists_addStep (hsteps : g.steps = done ++ s :: rest) (h : Follows p g done log c) :
    ∃ c', Compilation.addStep p Hooks.none g c s = .ok c' := by
  have hs : s ∈ g.steps := by rw [hsteps]; simp
  obtain ⟨rs, hrs⟩ := haccepts.steps s hs
  obtain ⟨made, triggers, alerts, hmade, htriggers, halerts, rfl⟩ := Provider.pieces?_eq_some_iff.1 hrs
  obtain ⟨c₁, hc₁⟩ := h.exists_ensureAll haccepts ((touched s).map (·.1))
  obtain ⟨log₁, -, h₁, -, hlooked⟩ := h.ensureAll hc₁
  have hlooked : ∀ t ∈ touched s, (c₁.stores.lookup t.1).isSome :=
    fun t ht => hlooked t.1 (.inr (List.mem_map_of_mem ht))
  have hcalls : Follows p g done log₁
      { c₁ with calls := c₁.calls ++ [.compute s (bindings g c₁ s)] } :=
    ⟨h₁.provider, h₁.plan, h₁.logged, h₁.stores, h₁.ids, h₁.runners⟩
  obtain ⟨c₂, hc₂⟩ := hcalls.exists_insertAll haccepts fun r hr => .inr ⟨s, hs, _, hrs, hr⟩
  rw [← linked_eq hg hsteps (fun t ht => h₁.store?_eq (hlooked t ht)) h₁.runners] at hc₂
  refine ⟨_, addStep_eq_ok_iff.2 ⟨c₁, c₂, made, triggers, alerts, hc₁, ?_, htriggers, halerts, hc₂, rfl⟩⟩
  rw [h₁.bindings_eq hp hassets hdigest hlooked]
  exact Provider.runner?_eq_some_iff.1 hmade

/-- **A run does not fail.** -/
theorem Follows.exists_addSteps (hsteps : g.steps = done ++ rest) (h : Follows p g done log c) :
    ∃ c', rest.foldlM (Compilation.addStep p Hooks.none g) c = .ok c' := by
  induction rest generalizing done log c with
  | nil => exact ⟨c, rfl⟩
  | cons s rest ih =>
    obtain ⟨c₁, hc₁⟩ := h.exists_addStep haccepts hp hg hassets hdigest hsteps
    obtain ⟨log₁, h₁⟩ := h.addStep hp hg hassets hdigest hsteps hc₁
    obtain ⟨c', hc'⟩ := ih (by rw [hsteps, List.append_assoc]; rfl) h₁
    exact ⟨c', bind_eq_ok_iff.2 ⟨c₁, hc₁, hc'⟩⟩

end Compilation

/-! ## Plans -/

section

variable {p : Provider} {g : Graph} {plan : Plan} {c : Compilation} {log : List Resource}
  {done : List Step} {id : ResourceId}

/-- What is put in after a run over all steps and all assets is all that the provider makes. -/
theorem Compilation.Follows.mem_iff (h : Compilation.Follows p g g.steps log c)
    (hlooked : ∀ x ∈ g.assets, (c.stores.lookup x.address).isSome) {r : Resource} :
    r ∈ log ↔ p.Makes g r := by
  refine ⟨h.logged.makes, ?_⟩
  rintro (⟨a, hr⟩ | ⟨s, hs, rs, hrs, hr⟩)
  · obtain ⟨x, hx, rfl, -⟩ := Provider.exists_of_storedAt? hr
    obtain ⟨o, ho⟩ := Option.isSome_iff_exists.1 (hlooked x hx)
    exact (h.stores _ o ho).2.1 r hr
  · obtain ⟨qs, hqs, hlog⟩ := h.logged.exists_pieces hs
    obtain rfl := Option.some.inj (hqs.symm.trans hrs)
    exact hlog r hr

variable (hp : p.Orderly) (hg : g.Sound) (hassets : (g.assets.map (·.address)).Nodup)
  (hdigest : Set.InjOn Naming.digest g.hashed)

include hp hg hassets hdigest

/-- **A graph is compiled exactly if it is accepted.** -/
theorem Plan.exists_ofGraph_iff (hself : p.SelfContained) :
    (∃ plan, Plan.ofGraph p Hooks.none g = .ok plan) ↔ p.Accepts g := by
  constructor
  · rintro ⟨plan, hplan⟩
    obtain ⟨c, c', hsteps, hlast, -⟩ := Plan.ofGraph_eq_ok_iff.1 hplan
    obtain ⟨log, h, hlooked⟩ := Compilation.follows_of_run hp hg hassets hdigest hsteps hlast
    refine ⟨fun a x hx => ?_, fun s hs => ?_, fun r q hr hq => ?_⟩
    · obtain ⟨hmem, rfl⟩ := (Provider.asset?_eq_some_iff hassets).1 hx
      obtain ⟨o, ho⟩ := Option.isSome_iff_exists.1 (hlooked x hmem)
      exact (h.stores _ o ho).2.2 x hx
    · obtain ⟨rs, hrs, -⟩ := h.logged.exists_pieces hs
      exact ⟨rs, hrs⟩
    · exact h.plan.origin r ((h.mem_iff hlooked).2 hr) q ((h.mem_iff hlooked).2 hq)
  · intro haccepts
    obtain ⟨c, hsteps⟩ := Compilation.follows_start.exists_addSteps haccepts hp hg hassets hdigest
      (List.nil_append _).symm
    obtain ⟨log₁, h₁⟩ := Compilation.follows_start.addSteps hp hg hassets hdigest
      (List.nil_append _).symm hsteps
    obtain ⟨c', hlast⟩ := h₁.exists_ensureAll haccepts (g.assets.map (·.address))
    obtain ⟨log, h, hlooked⟩ := Compilation.follows_of_run hp hg hassets hdigest hsteps hlast
    refine ⟨c'.plan, Plan.ofGraph_eq_ok_iff.2 ⟨c, c', hsteps, hlast, ?_⟩⟩
    refine Plan.checked_of_contains fun id r hr d hd => ?_
    obtain ⟨q, hq, rfl⟩ := (h.logged.makes (h.plan.mem_of_get? hr).1).exists_of_dependsOn haccepts hp
      hself hg hd
    obtain ⟨held, -, hget, -⟩ := h.plan.exists_get? ((h.mem_iff hlooked).2 hq)
    exact ⟨held, hget⟩

omit hg hassets hdigest in
/-- The last thing of a name that is put in for the steps is the last one of the log. -/
theorem Provider.Log.find?_of_lastPiece? (h : p.Log g done log) {r : Resource}
    (hr : p.lastPiece? g done id = some r) : log.find? (·.id == id) = some r := by
  induction h with
  | start => exact absurd hr (by simp [lastPiece?])
  | @storage _ _ _ q hq hlog ih =>
    obtain ⟨s, hs, rs, hrs, hmem, hid⟩ := exists_of_lastPiece? hr
    have hother : q.id ≠ id := fun heq =>
      id_ne_of_mem_pieces hp.legible hq (hlog.mem_steps hs) hrs hmem (hid.trans heq.symm)
    rw [List.find?_cons, beq_false_of_ne hother]
    exact ih hr
  | step _ hrs _ ih =>
    unfold lastPiece? at hr
    rw [List.reverse_append, List.reverse_singleton, List.singleton_append, List.findSome?_cons, hrs,
      Option.bind_some] at hr
    rw [List.find?_append]
    split at hr
    · rename_i hfound
      rw [hfound, Option.some_or, hr]
    · rename_i hnone
      rw [hnone, Option.none_or]
      exact ih hr

theorem Plan.provider_of_ofGraph (hplan : Plan.ofGraph p Hooks.none g = .ok plan) :
    plan.provider = p.name := by
  obtain ⟨c, c', hsteps, hlast, hchecked⟩ := Plan.ofGraph_eq_ok_iff.1 hplan
  obtain rfl := Plan.eq_of_checked hchecked
  obtain ⟨log, h, -⟩ := Compilation.follows_of_run hp hg hassets hdigest hsteps hlast
  exact h.provider

/-- **What the plan shows** under a name: storage, or the last thing of that name that is put in for the
steps. -/
theorem Plan.get?_eq_some_iff (hplan : Plan.ofGraph p Hooks.none g = .ok plan) {r : Resource} :
    plan.get? id = some r ↔
      (r.id = id ∧ ∃ a, p.storedAt? g a = some r) ∨ p.lastPiece? g g.steps id = some r := by
  obtain ⟨c, c', hsteps, hlast, hchecked⟩ := Plan.ofGraph_eq_ok_iff.1 hplan
  obtain rfl := Plan.eq_of_checked hchecked
  obtain ⟨log, h, hlooked⟩ := Compilation.follows_of_run hp hg hassets hdigest hsteps hlast
  have hshown : ∀ q, p.lastPiece? g g.steps id = some q → c'.plan.get? id = some q := fun q hq =>
    (h.plan.get? id).trans (h.logged.find?_of_lastPiece? hp hq)
  constructor
  · intro hr
    obtain ⟨hmem, rfl⟩ := h.plan.mem_of_get? hr
    rcases h.logged.makes hmem with hstored | ⟨s, hs, rs, hrs, hmem⟩
    · exact .inl ⟨rfl, hstored⟩
    · obtain ⟨q, hq⟩ := Provider.exists_lastPiece? hs hrs hmem
      obtain rfl := Option.some.inj ((hshown q hq).symm.trans hr)
      exact .inr hq
  · rintro (⟨rfl, a, hr⟩ | hr)
    · obtain ⟨x, hx, -, hstored⟩ := Provider.exists_of_storedAt? hr
      refine h.plan.get?_of_unique ((h.mem_iff hlooked).2 (.inl ⟨a, hr⟩)) fun q hq hid horigin => ?_
      obtain ⟨part, hgives⟩ := (h.logged.makes hq).exists_gives
      exact Provider.eq_of_stored hp.legible hassets hdigest hx hstored hgives hid horigin
    · exact hshown r hr

end

end Provenance
