import Provenance.Proofs.Infra.Namesake

/-!
# Resources that are changed

Hooks that keep kinds, names and origins change nothing that the compiler looks at.  Changes to storage can
be seen as a part of the provider (`Provider.hooked`).  Changes to what runs a step come when it is linked,
so they are seen in the plan only (`Provider.finished`).

Storage and what runs a step are told apart by their names and origins, so once they are in the plan nothing
takes their place: they last (`Compilation.Lasts`).  With that, one step of a run keeps up that the plan
shows what it should of all storage that was looked at and of all steps that are done
(`Compilation.Keeps`), and whatever is translated later finds it there.

A step is compiled in two parts.  `Compilation.reach` puts in its storage, what runs it and its access
resources, and `Compilation.conclude` what starts and what watches it.

* `Compilation.Keeps.reach`: **a step is reached** with its storage and what runs it in place.
* `Compilation.keeps_of_ofGraph`: **a whole run** keeps them there.
* `Compilation.exists_reach_of_ofGraph`: **a run comes to each step**, and goes on from there.
-/

namespace Provenance

/-! ## Changes -/

namespace Hooks

variable {h : Hooks} {changes : List (Address × (Resource → Resource))} {a : Address} {r : Resource}

/-- The changes that are listed under an address, in their order. -/
def under (changes : List (Address × (Resource → Resource))) (a : Address) : List (Resource → Resource) :=
  (changes.filter (·.1 = a)).map (·.2)

/-- Each change under the address is applied once, one after the other. -/
theorem apply_eq : apply changes a r = (under changes a).foldl (fun r change => change r) r := by
  unfold apply under
  rw [List.foldl_map, List.foldl_filter]
  simp only [decide_eq_true_eq]

/-- The changes keep kinds, names and origins. -/
def KeepNames (h : Hooks) : Prop :=
  ∀ change ∈ h.storage ++ h.compute, ∀ r : Resource, (change.2 r).Namesake r ∧
    (change.2 r).origin = r.origin

theorem namesake_apply (hkeep : ∀ change ∈ changes, ∀ r : Resource, (change.2 r).Namesake r ∧
    (change.2 r).origin = r.origin) : (apply changes a r).Namesake r ∧ (apply changes a r).origin = r.origin := by
  unfold apply
  induction changes generalizing r with
  | nil => exact ⟨.refl r, rfl⟩
  | cons change changes ih =>
    obtain ⟨hfirst, hrest⟩ := List.forall_mem_cons.1 hkeep
    rw [List.foldl_cons]
    have hone : (if change.1 = a then change.2 r else r).Namesake r ∧
        (if change.1 = a then change.2 r else r).origin = r.origin := by
      split
      · exact hfirst r
      · exact ⟨.refl r, rfl⟩
    obtain ⟨hnames, horigin⟩ := ih hrest
    exact ⟨hnames.trans hone.1, horigin.trans hone.2⟩

theorem KeepNames.storage (hh : h.KeepNames) :
    (apply h.storage a r).Namesake r ∧ (apply h.storage a r).origin = r.origin :=
  namesake_apply fun change hchange => hh change (List.mem_append_left _ hchange)

theorem KeepNames.compute (hh : h.KeepNames) :
    (apply h.compute a r).Namesake r ∧ (apply h.compute a r).origin = r.origin :=
  namesake_apply fun change hchange => hh change (List.mem_append_right _ hchange)

/-- What storage was made for is kept. -/
theorem KeepNames.madeFor_apply (hh : h.KeepNames) (origin : String) :
    (apply h.storage a (r.madeFor origin)).madeFor origin = apply h.storage a (r.madeFor origin) :=
  Resource.madeFor_of_origin hh.storage.2

end Hooks

/-! ## Providers with changes -/

namespace Provider

variable {p : Provider} {h : Hooks} {g : Graph} {cast : String → Part} {x : Asset} {s : Step}
  {made : Runner} {r q : Resource}

/-- The provider whose storage is changed. -/
def hooked (p : Provider) (h : Hooks) : Provider :=
  { p with
    storage := fun x spec =>
      (p.storage x spec).map fun r => Hooks.apply h.storage x.address (r.madeFor x.address.text) }

/-- What runs a step in the end: linked, then changed. -/
def finished (p : Provider) (h : Hooks) (g : Graph) (s : Step) (made : Runner) : Resource :=
  Hooks.apply h.compute s.output.address ((p.hooked h).linked g s made)

/-- The storage of an asset in the end. -/
def storeOf (p : Provider) (h : Hooks) (x : Asset) : Resource :=
  ((p.hooked h).stored? x).getD (.plain "" "")

/-- What runs a step in the end. -/
def runnerOf (p : Provider) (h : Hooks) (g : Graph) (s : Step) : Resource :=
  ((p.hooked h).runner? g s).elim (.plain "" "") (p.finished h g s)

theorem storeOf_eq (hr : (p.hooked h).stored? x = some r) : p.storeOf h x = r := by
  rw [storeOf, hr, Option.getD_some]

theorem runnerOf_eq (hmade : (p.hooked h).runner? g s = some made) :
    p.runnerOf h g s = p.finished h g s made := by
  rw [runnerOf, hmade, Option.elim_some]

variable (hh : h.KeepNames)

include hh

theorem Legible.hooked (hp : p.Legible cast) : (p.hooked h).Legible cast where
  storage := by
    obtain ⟨room, sep, hstorage⟩ := hp.storage
    refine ⟨room, sep, fun x spec r hr => ?_⟩
    obtain ⟨made, hmade, rfl⟩ := map_eq_ok_iff.1 hr
    obtain ⟨⟨hpart, hpoint⟩, hname⟩ := hstorage x spec made hmade
    obtain ⟨hnames, -⟩ := hh.storage (a := x.address) (r := made.madeFor x.address.text)
    unfold Resource.StandsFor
    rw [hnames.kind, hnames.name]
    exact ⟨⟨hpart, hpoint⟩, hname⟩
  compute := hp.compute
  schedule := hp.schedule
  monitoring := hp.monitoring

/-- The storage of an asset in the end: translated, then changed. -/
theorem stored?_hooked_eq_some_iff : (p.hooked h).stored? x = some r ↔ ∃ spec made, x.storage = some spec ∧
    p.storage x spec = .ok made ∧ r = Hooks.apply h.storage x.address (made.madeFor x.address.text) := by
  rw [stored?_eq_some_iff]
  simp only [Provider.hooked, map_eq_ok_iff]
  constructor
  · rintro ⟨spec, _, hspec, ⟨made, hmade, rfl⟩, rfl⟩
    exact ⟨spec, made, hspec, hmade, hh.madeFor_apply _⟩
  · rintro ⟨spec, made, hspec, hmade, rfl⟩
    exact ⟨spec, _, hspec, ⟨made, hmade, rfl⟩, (hh.madeFor_apply _).symm⟩

theorem namesake_finished : (p.finished h g s made).Namesake ((p.hooked h).linked g s made) := hh.compute.1

theorem id_finished : (p.finished h g s made).id = made.compute.id :=
  (namesake_finished hh).id_eq.trans id_linked

theorem origin_finished : (p.finished h g s made).origin = s.origin := hh.compute.2.trans origin_linked

omit hh

/-- The resource is storage or runs a step, as it is in the end. -/
def Settles (p : Provider) (h : Hooks) (g : Graph) (r : Resource) : Prop :=
  (∃ x ∈ g.assets, (p.hooked h).stored? x = some r) ∨
    ∃ s ∈ g.steps, ∃ made, (p.hooked h).runner? g s = some made ∧ r = p.finished h g s made

/-- The resource may be put in: it settles something, or it is neither storage nor runs a step. -/
def Admits (p : Provider) (h : Hooks) (g : Graph) (r : Resource) : Prop :=
  p.Settles h g r ∨ ∃ part, part ≠ .storage ∧ part ≠ .compute ∧ (p.hooked h).Gives g part r

/-- **What settles something is told apart by its name and its origin** from all that may be put in. -/
theorem Settles.eq_of_admits (hp : p.Legible cast) (hh : h.KeepNames) (hg : g.Sound)
    (hassets : (g.assets.map (·.address)).Nodup) (hdigest : Set.InjOn Naming.digest g.hashed)
    (hr : p.Settles h g r) (hq : p.Admits h g q) (hid : q.id = r.id) (horigin : q.origin = r.origin) :
    q = r := by
  have hp := hp.hooked hh
  -- what runs a step has name and origin of what is linked
  have hlinked : ∀ {s made}, (p.finished h g s made).id = ((p.hooked h).linked g s made).id :=
    fun {s made} => (namesake_finished hh).id_eq
  rcases hr with ⟨x, hx, hr⟩ | ⟨s, hs, made, hmade, rfl⟩
  · rcases hq with (⟨y, hy, hq⟩ | ⟨t, ht, made, hmade, rfl⟩) | ⟨part, hne, -, hq⟩
    · exact eq_of_stored hp hassets hdigest hx hr (.storage hy hq) hid horigin
    · have hpart := (Gives.storage hx hr).eq_part hp (.compute ht hmade) (hlinked.symm.trans hid)
      exact absurd hpart (by simp)
    · exact absurd ((Gives.storage hx hr).eq_part hp hq hid) hne
  · rw [hlinked] at hid
    rcases hq with (⟨y, hy, hq⟩ | ⟨t, ht, made', hmade', rfl⟩) | ⟨part, -, hne, hq⟩
    · exact absurd ((Gives.compute hs hmade).eq_part hp (.storage hy hq) hid) (by simp)
    · rw [hlinked, id_linked, id_linked] at hid
      rw [origin_finished hh, origin_finished hh] at horigin
      obtain rfl := step_eq_of_linked hp hg hdigest hs hmade ht hmade' hid horigin
      rw [Option.some.inj (hmade'.symm.trans hmade)]
    · exact absurd ((Gives.compute hs hmade).eq_part hp hq hid) hne

end Provider

/-! ## Runs -/

namespace Compilation

/-- Compiles a step up to what starts and what watches it. -/
def reach (p : Provider) (h : Hooks) (g : Graph) (c : Compilation) (s : Step) :
    Except Fault (ResourceId × Compilation) := do
  let c ← (touched s).foldlM (fun c t => ensureStore p h g c t.1) c
  let (runner, c) ← makeRunner p h g c s
  let c ← c.insert runner.compute
  let c ← runner.access.foldlM (fun c r => c.insert (r.madeFor s.origin)) c
  return (runner.compute.id, c)

/-- Compiles what starts and what watches a step, and notes what runs it. -/
def conclude (p : Provider) (s : Step) (runner : ResourceId) (c : Compilation) :
    Except Fault Compilation := do
  let c ← addTrigger p s runner c
  let c ← addAlerts p s runner c
  return { c with runners := c.runners ++ [(s.id, runner)] }

/-- The state holds on to what another one has: nothing that settles something is lost, and no call. -/
structure Lasts (p : Provider) (h : Hooks) (g : Graph) (c c' : Compilation) : Prop where
  plan : ∀ r, p.Settles h g r → c.plan.get? r.id = some r → c'.plan.get? r.id = some r
  calls : c.calls ⊆ c'.calls

/-- A step is in place: the provider was asked for what runs it, with all storage as it is in the end, and
what runs it is in the plan as it is in the end. -/
def Placed (p : Provider) (h : Hooks) (g : Graph) (c : Compilation) (s : Step) : Prop :=
  ∃ made, (p.hooked h).runner? g s = some made ∧
    Call.compute s ((p.hooked h).bindings g s) ∈ c.calls ∧
    c.plan.get? made.compute.id = some (p.finished h g s made)

/-- The storage of addresses that were looked at and the steps that are done are in the plan as they are in
the end, and no step was bound to anything else. -/
structure Keeps (p : Provider) (h : Hooks) (g : Graph) (done : List Step) (c : Compilation) : Prop where
  stores : ∀ a o, c.stores.lookup a = some o → o = ((p.hooked h).storedAt? g a).map Resource.id ∧
    (∀ r, (p.hooked h).storedAt? g a = some r → c.plan.get? r.id = some r) ∧ (p.hooked h).Expresses g a
  placed : ∀ t ∈ done, t ∈ g.steps ∧ Placed p h g c t
  ids : c.runners.map (·.1) = done.map (·.id)
  runners : ∀ t ∈ done, ∃ made, (p.hooked h).runner? g t = some made ∧
    c.runners.lookup t.id = some made.compute.id
  calls : ∀ t bs, Call.compute t bs ∈ c.calls → bs = (p.hooked h).bindings g t

section

variable {p : Provider} {h : Hooks} {g : Graph} {cast : String → Part} {c c' c'' : Compilation}
  {a : Address} {s : Step} {done rest : List Step} {r : Resource} {rs : List Resource}

/-- A step is compiled in two parts. -/
theorem addStep_eq : addStep p h g c s = reach p h g c s >>= fun out => conclude p s out.1 out.2 := by
  unfold addStep reach conclude
  simp only [bind_assoc, pure_bind]

/-- A whole run goes over the steps and then over the assets, and the check changes nothing. -/
theorem exists_of_ofGraph (hrun : ofGraph p h g = .ok c) : ∃ last,
    g.steps.foldlM (addStep p h g) (start p) = .ok last ∧
    (g.assets.map (·.address)).foldlM (ensureStore p h g) last = .ok c := by
  unfold ofGraph at hrun
  obtain ⟨last, hsteps, hrun⟩ := bind_eq_ok_iff.1 hrun
  obtain ⟨c', hsweep, hrun⟩ := bind_eq_ok_iff.1 hrun
  obtain ⟨plan, hchecked, hend⟩ := bind_eq_ok_iff.1 hrun
  obtain rfl := Plan.eq_of_checked hchecked
  obtain rfl := Except.ok.inj hend
  exact ⟨last, hsteps, hsweep⟩

theorem Lasts.refl (c : Compilation) : Lasts p h g c c := ⟨fun _ _ hr => hr, List.Subset.refl _⟩

theorem Lasts.trans (h₁ : Lasts p h g c c') (h₂ : Lasts p h g c' c'') : Lasts p h g c c'' :=
  ⟨fun r hr hget => h₂.plan r hr (h₁.plan r hr hget), List.Subset.trans h₁.calls h₂.calls⟩

theorem keeps_start : Keeps p h g [] (start p) where
  stores a o ha := absurd ha (by simp [start])
  placed t ht := absurd ht List.not_mem_nil
  ids := rfl
  runners t ht := absurd ht List.not_mem_nil
  calls t bs hcall := absurd hcall List.not_mem_nil

variable (hh : h.KeepNames)

include hh

/-- A step stays in place. -/
theorem Placed.mono (hs : s ∈ g.steps) (hplaced : Placed p h g c s) (hlasts : Lasts p h g c c') :
    Placed p h g c' s := by
  obtain ⟨made, hmade, hcall, hget⟩ := hplaced
  refine ⟨made, hmade, hlasts.calls hcall, ?_⟩
  rw [← Provider.id_finished (g := g) (s := s) hh] at hget ⊢
  exact hlasts.plan _ (.inr ⟨s, hs, made, hmade, rfl⟩) hget

/-- What runs a step that is in place is in the plan. -/
theorem Placed.runnerOf (hplaced : Placed p h g c s) : ∃ made, (p.hooked h).runner? g s = some made ∧
    p.runnerOf h g s = p.finished h g s made ∧ (p.runnerOf h g s).id = made.compute.id ∧
    c.plan.get? (p.runnerOf h g s).id = some (p.runnerOf h g s) := by
  obtain ⟨made, hmade, -, hget⟩ := hplaced
  rw [Provider.runnerOf_eq hmade, Provider.id_finished hh]
  exact ⟨made, hmade, rfl, rfl, hget⟩

/-- Only the plan changes, and nothing that settles something is lost. -/
theorem Keeps.of_plan {plan : Plan} (hc : Keeps p h g done c) (hlasts : Lasts p h g c { c with plan }) :
    Keeps p h g done { c with plan } where
  stores a o ha := by
    obtain ⟨hname, hheld, hexpresses⟩ := hc.stores a o ha
    refine ⟨hname, fun r hr => ?_, hexpresses⟩
    obtain ⟨x, hx, -, hstored⟩ := Provider.exists_of_storedAt? hr
    exact hlasts.plan r (.inl ⟨x, hx, hstored⟩) (hheld r hr)
  placed t ht := ⟨(hc.placed t ht).1, (hc.placed t ht).2.mono hh (hc.placed t ht).1 hlasts⟩
  ids := hc.ids
  runners := hc.runners
  calls := hc.calls

/-- Changes to storage are a part of the provider. -/
theorem ensureStore_hooked : ensureStore p h g c a = ensureStore (p.hooked h) Hooks.none g c a := by
  unfold ensureStore
  split
  · rfl
  split
  · rfl
  · rename_i x spec hfound
    obtain ⟨y, hy, hpair⟩ := Option.bind_eq_some_iff.1 hfound
    obtain ⟨_, -, heq⟩ := Option.map_eq_some_iff.1 hpair
    obtain ⟨rfl, rfl⟩ := Prod.mk.inj heq
    obtain rfl := Provider.address_of_asset? hy
    dsimp only [Provider.hooked]
    cases hmade : p.storage y _ with
    | error fault => rfl
    | ok made =>
      have hsame : Hooks.apply Hooks.none.storage y.address
          ((Hooks.apply h.storage y.address (made.madeFor y.address.text)).madeFor y.address.text) =
            Hooks.apply h.storage y.address (made.madeFor y.address.text) := hh.madeFor_apply _
      simp only [bind, Except.bind, Except.map, hsame]

variable (hp : p.Legible cast) (hg : g.Sound) (hassets : (g.assets.map (·.address)).Nodup)
  (hdigest : Set.InjOn Naming.digest g.hashed)

include hp hg hassets hdigest

/-- **Nothing that settles something is lost** when a resource is put in: under its name there is nothing
else that could be. -/
theorem lasts_of_insert (hr : p.Admits h g r) (hc : c.insert r = .ok c') :
    ∃ plan, c' = { c with plan } ∧ Lasts p h g c c' ∧ c'.plan.get? r.id = some r := by
  obtain ⟨plan, hplan, rfl⟩ := insert_eq_ok_iff.1 hc
  obtain ⟨hheld, -⟩ := Plan.insert_eq_ok_iff.1 hplan
  obtain ⟨hself, hother⟩ := Plan.get?_of_insert hplan
  refine ⟨plan, rfl, ⟨fun q hq hget => ?_, List.Subset.refl _⟩, hself⟩
  by_cases hid : q.id = r.id
  · -- the name was taken by something of this origin
    have horigin := hheld q (hid ▸ hget)
    obtain rfl := hq.eq_of_admits hp hh hg hassets hdigest hr hid.symm horigin.symm
    exact hself
  · exact (hother q.id hid).trans hget

theorem lasts_of_insertAll (hrs : ∀ r ∈ rs, p.Admits h g r) (hc : rs.foldlM insert c = .ok c') :
    ∃ plan, c' = { c with plan } ∧ Lasts p h g c c' ∧
      ∀ r ∈ rs, p.Settles h g r → c'.plan.get? r.id = some r := by
  refine of_foldlM_eq_ok (P := fun put c' => ∃ plan, c' = { c with plan } ∧ Lasts p h g c c' ∧
    ∀ r ∈ put, p.Settles h g r → c'.plan.get? r.id = some r) hc
    ⟨c.plan, rfl, .refl c, fun r hr => absurd hr List.not_mem_nil⟩ ?_
  rintro put r _ rfl _ c₂ ⟨plan, rfl, hlasts, hall⟩ hinsert
  have hr : p.Admits h g r := hrs r (List.mem_append_right _ List.mem_cons_self)
  obtain ⟨plan', rfl, hlasts', hself⟩ := lasts_of_insert hh hp hg hassets hdigest hr hinsert
  refine ⟨plan', rfl, hlasts.trans hlasts', fun q hq hsettles => ?_⟩
  rcases List.mem_append.1 hq with hq | hq
  · exact hlasts'.plan q hsettles (hall q hq hsettles)
  · obtain rfl := List.mem_singleton.1 hq
    exact hself

/-- An address is looked at. -/
theorem Keeps.ensureStore (hc : Keeps p h g done c) (hrun : ensureStore p h g c a = .ok c') :
    Keeps p h g done c' ∧ Lasts p h g c c' ∧
      ∀ b, (c.stores.lookup b).isSome ∨ b = a → (c'.stores.lookup b).isSome := by
  rw [ensureStore_hooked hh] at hrun
  by_cases hlooked : (c.stores.lookup a).isSome
  · unfold Compilation.ensureStore at hrun
    rw [if_pos hlooked] at hrun
    obtain rfl := Except.ok.inj hrun
    exact ⟨hc, .refl c, fun b hb => hb.elim id fun heq => heq ▸ hlooked⟩
  · obtain ⟨hexpresses, c₁, hinsert, rfl⟩ := (ensureStore_eq_ok_iff hlooked).1 hrun
    have hsettles : ∀ r, (p.hooked h).storedAt? g a = some r → p.Settles h g r := by
      intro r hr
      obtain ⟨x, hx, -, hstored⟩ := Provider.exists_of_storedAt? hr
      exact .inl ⟨x, hx, hstored⟩
    obtain ⟨plan, rfl, hlasts, hself⟩ := lasts_of_insertAll hh hp hg hassets hdigest
      (fun r hr => .inl (hsettles r (Option.mem_toList.1 hr))) hinsert
    have hc₁ := hc.of_plan hh hlasts
    refine ⟨⟨fun b o hb => ?_, fun t ht => ?_, hc.ids, hc.runners, fun t bs hcall => ?_⟩,
      ⟨hlasts.plan, List.subset_append_left _ _⟩, fun b hb => isSome_lookup_append_pair.2 hb⟩
    · rcases of_lookup_append_pair hb with hb | ⟨rfl, rfl⟩
      · exact hc₁.stores b o hb
      · exact ⟨rfl, fun r hr => hself r (Option.mem_toList.2 hr) (hsettles r hr), hexpresses⟩
    · obtain ⟨hmem, made, hmade, hcall, hget⟩ := hc₁.placed t ht
      exact ⟨hmem, made, hmade, List.mem_append_left _ hcall, hget⟩
    · rcases List.mem_append.1 hcall with hcall | hcall
      · exact hc.calls t bs hcall
      · obtain ⟨x, -, heq⟩ := List.mem_map.1 hcall
        exact absurd heq (by simp)

/-- Addresses are looked at one after the other. -/
theorem Keeps.ensureAll {as : List Address} (hc : Keeps p h g done c)
    (hrun : as.foldlM (Compilation.ensureStore p h g) c = .ok c') :
    Keeps p h g done c' ∧ Lasts p h g c c' ∧ ∀ b ∈ as, (c'.stores.lookup b).isSome := by
  refine of_foldlM_eq_ok (P := fun looked c' => Keeps p h g done c' ∧ Lasts p h g c c' ∧
    ∀ b ∈ looked, (c'.stores.lookup b).isSome) hrun
    ⟨hc, .refl c, fun b hb => absurd hb List.not_mem_nil⟩ ?_
  rintro looked a _ - c₁ c₂ ⟨hc₁, hlasts₁, hlooked₁⟩ hnext
  obtain ⟨hc₂, hlasts₂, hlooked₂⟩ := hc₁.ensureStore hh hp hg hassets hdigest hnext
  refine ⟨hc₂, hlasts₁.trans hlasts₂, fun b hb => hlooked₂ b ?_⟩
  rw [List.mem_append, List.mem_singleton] at hb
  exact hb.imp_left (hlooked₁ b)

omit hh hp hg hassets hdigest in
/-- The storage of an address that was looked at. -/
theorem Keeps.store?_eq (hc : Keeps p h g done c) (ha : (c.stores.lookup a).isSome) :
    c.store? a = ((p.hooked h).storedAt? g a).map Resource.id := by
  obtain ⟨o, ho⟩ := Option.isSome_iff_exists.1 ha
  rw [store?, ho, Option.join_some]
  exact (hc.stores a o ho).1

omit hh hp hg hdigest in
/-- A step is bound to storage as it is in the end. -/
theorem Keeps.bindings_eq (hc : Keeps p h g done c)
    (hlooked : ∀ t ∈ touched s, (c.stores.lookup t.1).isSome) :
    bindings g c s = (p.hooked h).bindings g s := by
  refine Compilation.bindings_eq fun t ht x hx => ?_
  obtain ⟨hmem, haddress⟩ := (Provider.asset?_eq_some_iff hassets).1 hx
  have hstored : (p.hooked h).storedAt? g t.1 = (p.hooked h).stored? x := by
    rw [← haddress, Provider.storedAt?_of_mem hassets hmem]
  rw [hc.store?_eq (hlooked t ht), hstored]
  cases hr : (p.hooked h).stored? x with
  | none => rfl
  | some r =>
    obtain ⟨o, ho⟩ := Option.isSome_iff_exists.1 (hlooked t ht)
    exact (hc.stores _ o ho).2.1 r (hstored.trans hr)

omit hh hp hdigest in
/-- What runs a step is made of its storage as it is in the end, and linked and changed as it should be. -/
theorem Keeps.makeRunner {made : Runner} (hsteps : g.steps = done ++ s :: rest)
    (hc : Keeps p h g done c) (hlooked : ∀ t ∈ touched s, (c.stores.lookup t.1).isSome)
    (hrun : makeRunner p h g c s = .ok (made, c')) :
    Keeps p h g done c' ∧ Lasts p h g c c' ∧ c'.stores = c.stores ∧
      Call.compute s ((p.hooked h).bindings g s) ∈ c'.calls ∧
      ∃ raw, (p.hooked h).runner? g s = some raw ∧ made = ⟨p.finished h g s raw, raw.access⟩ := by
  unfold Compilation.makeRunner at hrun
  obtain ⟨raw, hraw, heq⟩ := bind_eq_ok_iff.1 hrun
  obtain ⟨rfl, rfl⟩ := Prod.mk.inj (Except.ok.inj heq)
  rw [hc.bindings_eq hassets hlooked] at hraw ⊢
  have hlasts : Lasts p h g c
      { c with calls := c.calls ++ [.compute s ((p.hooked h).bindings g s)] } :=
    ⟨fun _ _ hr => hr, List.subset_append_left _ _⟩
  refine ⟨⟨hc.stores, fun t ht => ?_, hc.ids, hc.runners, fun t bs hcall => ?_⟩, hlasts, rfl,
    List.mem_append_right _ (List.mem_singleton_self _), raw, Provider.runner?_eq_some_iff.2 hraw, ?_⟩
  · obtain ⟨hmem, made, hmade, hcall, hget⟩ := hc.placed t ht
    exact ⟨hmem, made, hmade, hlasts.calls hcall, hget⟩
  · rcases List.mem_append.1 hcall with hcall | hcall
    · exact hc.calls t bs hcall
    · obtain ⟨rfl, rfl⟩ := Call.compute.inj (List.mem_singleton.1 hcall)
      rfl
  · rw [linked_eq hg hsteps (fun t ht => hc.store?_eq (hlooked t ht)) hc.runners raw]
    rfl

omit hh hp hg hdigest in
/-- Storage that was looked at is in the plan as it is in the end, whenever it is to be there. -/
theorem Keeps.storeOf {x : Asset} (hc : Keeps p h g done c) (hx : x ∈ g.assets)
    (hlooked : (c.stores.lookup x.address).isSome) (hstorage : x.storage.isSome) :
    (p.hooked h).stored? x = some (p.storeOf h x) ∧
      c.plan.get? (p.storeOf h x).id = some (p.storeOf h x) := by
  obtain ⟨o, ho⟩ := Option.isSome_iff_exists.1 hlooked
  obtain ⟨-, hheld, hexpresses⟩ := hc.stores _ o ho
  obtain ⟨r, hr⟩ := Option.isSome_iff_exists.1
    (hexpresses x ((Provider.asset?_eq_some_iff hassets).2 ⟨hx, rfl⟩) hstorage)
  rw [Provider.storeOf_eq hr]
  exact ⟨hr, hheld r ((Provider.storedAt?_of_mem hassets hx).trans hr)⟩

/-- **A step is reached**: its storage and what runs it are in place, before anything starts or watches it. -/
theorem Keeps.reach {runner : ResourceId} (hsteps : g.steps = done ++ s :: rest)
    (hc : Keeps p h g done c) (hrun : reach p h g c s = .ok (runner, c')) :
    Keeps p h g done c' ∧ Lasts p h g c c' ∧ Placed p h g c' s ∧
      (∃ made, (p.hooked h).runner? g s = some made ∧ runner = made.compute.id) ∧
      ∀ t ∈ touched s, (c'.stores.lookup t.1).isSome := by
  have hs : s ∈ g.steps := by rw [hsteps]; simp
  unfold Compilation.reach at hrun
  obtain ⟨c₁, hstores, hrun⟩ := bind_eq_ok_iff.1 hrun
  obtain ⟨⟨made, c₂⟩, hmake, hrun⟩ := bind_eq_ok_iff.1 hrun
  obtain ⟨c₃, hrunner, hrun⟩ := bind_eq_ok_iff.1 hrun
  obtain ⟨c₄, haccess, hend⟩ := bind_eq_ok_iff.1 hrun
  obtain ⟨rfl, rfl⟩ := Prod.mk.inj (Except.ok.inj hend)
  rw [← List.foldlM_map (f := Prod.fst) (g := fun c a => Compilation.ensureStore p h g c a)] at hstores
  obtain ⟨hc₁, hlasts₁, hlooked⟩ := hc.ensureAll hh hp hg hassets hdigest hstores
  have hlooked : ∀ t ∈ touched s, (c₁.stores.lookup t.1).isSome :=
    fun t ht => hlooked t.1 (List.mem_map_of_mem ht)
  obtain ⟨hc₂, hlasts₂, hstores₂, hcall, raw, hraw, rfl⟩ := hc₁.makeRunner hg hassets hsteps hlooked hmake
  -- what runs the step is put in, and then its access resources
  obtain ⟨plan, rfl, hlasts₃, hself⟩ := lasts_of_insert hh hp hg hassets hdigest
    (.inl (.inr ⟨s, hs, raw, hraw, rfl⟩)) hrunner
  rw [← List.foldlM_map (f := fun r : Resource => r.madeFor s.origin) (g := Compilation.insert)] at haccess
  have hadmits : ∀ r ∈ raw.access.map (·.madeFor s.origin), p.Admits h g r := List.forall_mem_map.2
    fun q hq => .inr ⟨.access, by simp, by simp, .access hs hraw hq⟩
  obtain ⟨plan', rfl, hlasts₄, -⟩ := lasts_of_insertAll hh hp hg hassets hdigest hadmits haccess
  have hplaced : Placed p h g { c₂ with plan } s := by
    refine ⟨raw, hraw, hcall, ?_⟩
    rwa [← Provider.id_finished hh]
  exact ⟨(hc₂.of_plan hh hlasts₃).of_plan hh hlasts₄,
    hlasts₁.trans (hlasts₂.trans (hlasts₃.trans hlasts₄)), hplaced.mono hh hs hlasts₄,
    ⟨raw, hraw, Provider.id_finished hh⟩, fun t ht => hstores₂ ▸ hlooked t ht⟩

/-- A step is concluded: what starts and what watches it take the place of nothing that lasts. -/
theorem Keeps.conclude {made : Runner} (hsteps : g.steps = done ++ s :: rest)
    (hc : Keeps p h g done c) (hplaced : Placed p h g c s) (hmade : (p.hooked h).runner? g s = some made)
    (hrun : conclude p s made.compute.id c = .ok c') :
    Keeps p h g (done ++ [s]) c' ∧ Lasts p h g c c' := by
  have hs : s ∈ g.steps := by rw [hsteps]; simp
  unfold Compilation.conclude at hrun
  obtain ⟨c₁, htrigger, hrun⟩ := bind_eq_ok_iff.1 hrun
  obtain ⟨c₂, halerts, hend⟩ := bind_eq_ok_iff.1 hrun
  obtain rfl := Except.ok.inj hend
  obtain ⟨triggers, htriggers, htrigger⟩ := addTrigger_eq_ok_iff.1 htrigger
  obtain ⟨alerts, halerts', halerts⟩ := addAlerts_eq_ok_iff.1 halerts
  have hstarts : ∀ r ∈ triggers, p.Admits h g r := fun r hr => .inr ⟨.trigger, by simp, by simp,
    .trigger hs hmade (Provider.starts_of_mem_triggers? htriggers hr)⟩
  have hwatches : ∀ r ∈ alerts, p.Admits h g r := fun r hr => .inr ⟨.alert, by simp, by simp,
    .alert hs hmade (Provider.watches_of_mem_alerts? halerts' hr)⟩
  obtain ⟨plan, rfl, hlasts₁, -⟩ := lasts_of_insertAll hh hp hg hassets hdigest hstarts htrigger
  obtain ⟨plan', rfl, hlasts₂, -⟩ := lasts_of_insertAll hh hp hg hassets hdigest hwatches halerts
  have hlasts := hlasts₁.trans hlasts₂
  have hc₂ := (hc.of_plan hh hlasts₁).of_plan hh hlasts₂
  obtain ⟨hself, hother⟩ := lookup_note hg hsteps hc.ids made.compute.id
  refine ⟨⟨hc₂.stores, fun t ht => ?_, ?_, fun t ht => ?_, hc₂.calls⟩, hlasts.plan, hlasts.calls⟩
  · rcases List.mem_append.1 ht with ht | ht
    · exact hc₂.placed t ht
    · obtain rfl := List.mem_singleton.1 ht
      have hkept := hplaced.mono hh hs hlasts
      exact ⟨hs, hkept⟩
  · rw [List.map_append, List.map_append, hc.ids]
    rfl
  · dsimp only
    rcases List.mem_append.1 ht with ht | ht
    · rw [hother t ht]
      exact hc.runners t ht
    · obtain rfl := List.mem_singleton.1 ht
      exact ⟨made, hmade, hself⟩

/-- **One step of a run.** -/
theorem Keeps.addStep (hsteps : g.steps = done ++ s :: rest) (hc : Keeps p h g done c)
    (hrun : addStep p h g c s = .ok c') : Keeps p h g (done ++ [s]) c' ∧ Lasts p h g c c' := by
  rw [addStep_eq] at hrun
  obtain ⟨⟨runner, c₁⟩, hreach, hconclude⟩ := bind_eq_ok_iff.1 hrun
  obtain ⟨hc₁, hlasts₁, hplaced, ⟨made, hmade, rfl⟩, -⟩ :=
    hc.reach hh hp hg hassets hdigest hsteps hreach
  obtain ⟨hc', hlasts⟩ := hc₁.conclude hh hp hg hassets hdigest hsteps hplaced hmade hconclude
  exact ⟨hc', hlasts₁.trans hlasts⟩

/-- **A run** over some steps. -/
theorem Keeps.addSteps {steps : List Step} (hsteps : g.steps = done ++ (steps ++ rest))
    (hc : Keeps p h g done c) (hrun : steps.foldlM (Compilation.addStep p h g) c = .ok c') :
    Keeps p h g (done ++ steps) c' ∧ Lasts p h g c c' := by
  refine of_foldlM_eq_ok (P := fun more c' => Keeps p h g (done ++ more) c' ∧ Lasts p h g c c') hrun
    ⟨by rwa [List.append_nil], .refl c⟩ ?_
  rintro more s after rfl c₁ c₂ ⟨hc₁, hlasts₁⟩ hnext
  have hsplit : g.steps = done ++ more ++ s :: (after ++ rest) := by
    rw [hsteps]
    simp
  obtain ⟨hc₂, hlasts₂⟩ := hc₁.addStep hh hp hg hassets hdigest hsplit hnext
  rw [← List.append_assoc]
  exact ⟨hc₂, hlasts₁.trans hlasts₂⟩

/-- **A whole run** keeps all steps in place, and looks at all assets. -/
theorem keeps_of_ofGraph (hrun : ofGraph p h g = .ok c) :
    Keeps p h g g.steps c ∧ ∀ x ∈ g.assets, (c.stores.lookup x.address).isSome := by
  obtain ⟨last, hsteps, hsweep⟩ := exists_of_ofGraph hrun
  have hall : g.steps = [] ++ (g.steps ++ []) := (List.append_nil _).symm
  obtain ⟨hlast, -⟩ := keeps_start.addSteps hh hp hg hassets hdigest hall hsteps
  obtain ⟨hc, -, hlooked⟩ := hlast.ensureAll hh hp hg hassets hdigest hsweep
  exact ⟨hc, fun x hx => hlooked _ (List.mem_map_of_mem hx)⟩

/-- **A run comes to each step**: it compiles the steps before it, reaches it, concludes it, and compiles the
steps after it and the assets that are left. -/
theorem exists_reach_of_ofGraph (hsteps : g.steps = done ++ s :: rest) (hrun : ofGraph p h g = .ok c) :
    ∃ before mid after last, done.foldlM (Compilation.addStep p h g) (start p) = .ok before ∧
      Compilation.reach p h g before s = .ok ((p.runnerOf h g s).id, mid) ∧
      (Keeps p h g done mid ∧ Placed p h g mid s ∧ ∀ t ∈ touched s, (mid.stores.lookup t.1).isSome) ∧
      Compilation.conclude p s (p.runnerOf h g s).id mid = .ok after ∧
      rest.foldlM (Compilation.addStep p h g) after = .ok last ∧
      (g.assets.map (·.address)).foldlM (Compilation.ensureStore p h g) last = .ok c := by
  obtain ⟨last, hall, hsweep⟩ := exists_of_ofGraph hrun
  rw [hsteps, List.foldlM_append] at hall
  obtain ⟨before, hdone, hall⟩ := bind_eq_ok_iff.1 hall
  rw [List.foldlM_cons, addStep_eq] at hall
  obtain ⟨after, hstep, hrest⟩ := bind_eq_ok_iff.1 hall
  obtain ⟨⟨runner, mid⟩, hreach, hconclude⟩ := bind_eq_ok_iff.1 hstep
  have hfirst : g.steps = [] ++ (done ++ s :: rest) := hsteps
  obtain ⟨hbefore, -⟩ := keeps_start.addSteps hh hp hg hassets hdigest hfirst hdone
  obtain ⟨hmid, -, hplaced, ⟨made, hmade, rfl⟩, hlooked⟩ :=
    hbefore.reach hh hp hg hassets hdigest hsteps hreach
  have hid : (p.runnerOf h g s).id = made.compute.id := by
    rw [Provider.runnerOf_eq hmade, Provider.id_finished hh]
  rw [hid]
  exact ⟨before, mid, after, last, hdone, hreach, ⟨hmid, hplaced, hlooked⟩, hconclude, hrest, hsweep⟩

end

end Compilation

end Provenance
