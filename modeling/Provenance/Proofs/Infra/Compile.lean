import Mathlib.Data.Set.Function
import Provenance.Infra.Compile
import Provenance.Proofs.Graph.Sound
import Provenance.Proofs.Infra.Provider

/-!
# What a compilation leaves behind

What a provider makes of a graph can be said without the state of a compilation: the storage of an asset
(`Provider.stored?`), what a step is bound to (`Provider.bindings`), what runs it and on what that depends
(`Provider.linked`), and all that is put in for it (`Provider.pieces?`).  `Provider.Gives` lists these
resources by the parts that they play.

A compilation puts in all of them and nothing else, storage at any time and what belongs to a step together
(`Provider.Log`).  Its state follows the steps that are done (`Compilation.Follows`): the plan lists what was
put in, the storage of an address that was looked at is in, and the runners of the steps that are done are
known.  One step keeps this up (`Follows.addStep`), since the steps that it reads from are done before it; a
run does so by induction (`follows_of_run`).

Storage is looked up in the plan again when a step is bound to it.  That the plan then shows the very
resource that was made for it needs names that tell storage apart (`eq_of_stored`), so the digests of
what is hashed for the graph have to differ (`Graph.hashed`).

-/

namespace Provenance

/-- The texts that the names of resources carry the digests of. -/
def Graph.hashed (g : Graph) : Set String :=
  {text | (∃ x ∈ g.assets, x.storage.isSome ∧ x.address.location = text) ∨
    ∃ s ∈ g.steps, Naming.identity s.output.address = text}

namespace Provider

/-- The resource of the storage of an asset, if it is to be stored. -/
def stored? (p : Provider) (x : Asset) : Option Resource :=
  x.storage.bind fun spec => (p.storage x spec).toOption.map (·.madeFor x.address.text)

/-- The resource of the storage at an address. -/
def storedAt? (p : Provider) (g : Graph) (a : Address) : Option Resource := (g.asset? a).bind p.stored?

/-- The provider can express the storage at an address, if there is to be any. -/
def Expresses (p : Provider) (g : Graph) (a : Address) : Prop :=
  ∀ x, g.asset? a = some x → x.storage.isSome → (p.stored? x).isSome

/-- What a step is bound to: the assets that it touches, with their storage. -/
def bindings (p : Provider) (g : Graph) (s : Step) : List Binding :=
  (Compilation.touched s).filterMap fun t => (g.asset? t.1).map fun x => ⟨x, p.stored? x, t.2⟩

/-- What a step is translated into. -/
def runner? (p : Provider) (g : Graph) (s : Step) : Option Runner :=
  (p.compute s (p.bindings g s)).toOption

/-- What runs a step, with its dependencies: the storage that the step touches, its access resources, and
what runs the steps that it reads from. -/
def linked (p : Provider) (g : Graph) (s : Step) (made : Runner) : Resource :=
  (((made.compute.madeFor s.origin).dependAll
    ((Compilation.touched s).filterMap fun t => (p.storedAt? g t.1).map Resource.id)).dependAll
      (made.access.map Resource.id)).dependAll
        ((g.upstream s.id).filterMap fun id => (g.step? id).bind fun t =>
          (p.runner? g t).map (·.compute.id))

/-- The resource starts a step that has a schedule. -/
def Starts (p : Provider) (s : Step) (runner : ResourceId) (r : Resource) : Prop :=
  ∃ schedule t, s.task.schedule = some schedule ∧ p.schedule s schedule runner = .ok t ∧
    r = (t.depend runner).madeFor s.origin

/-- The resource watches a step that has monitoring. -/
def Watches (p : Provider) (s : Step) (runner : ResourceId) (r : Resource) : Prop :=
  ∃ monitoring ts, s.task.monitoring = some monitoring ∧ p.monitoring s monitoring runner = .ok ts ∧
    ∃ t ∈ ts, r = (t.depend runner).madeFor s.origin

/-- What starts a step, if the provider can express it. -/
def triggers? (p : Provider) (s : Step) (runner : ResourceId) : Option (List Resource) :=
  match s.task.schedule with
  | none => some []
  | some schedule =>
    (p.schedule s schedule runner).toOption.map fun t => [(t.depend runner).madeFor s.origin]

/-- What watches a step, if the provider can express it. -/
def alerts? (p : Provider) (s : Step) (runner : ResourceId) : Option (List Resource) :=
  match s.task.monitoring with
  | none => some []
  | some monitoring =>
    (p.monitoring s monitoring runner).toOption.map (·.map fun t => (t.depend runner).madeFor s.origin)

/-- All that is put in for a step, in this order, if the provider can express it. -/
def pieces? (p : Provider) (g : Graph) (s : Step) : Option (List Resource) := do
  let made ← p.runner? g s
  let triggers ← p.triggers? s made.compute.id
  let alerts ← p.alerts? s made.compute.id
  return p.linked g s made :: (made.access.map (·.madeFor s.origin) ++ (triggers ++ alerts))

/-- The provider makes a resource of a graph: it is storage, or is put in for a step. -/
def Makes (p : Provider) (g : Graph) (r : Resource) : Prop :=
  (∃ a, p.storedAt? g a = some r) ∨ ∃ s ∈ g.steps, ∃ rs, p.pieces? g s = some rs ∧ r ∈ rs

/-- The resources that a provider makes of a graph, by the parts that they play. -/
inductive Gives (p : Provider) (g : Graph) : Part → Resource → Prop
  | storage {x : Asset} {r : Resource} : x ∈ g.assets → p.stored? x = some r → Gives p g .storage r
  | compute {s : Step} {made : Runner} : s ∈ g.steps → p.runner? g s = some made →
      Gives p g .compute (p.linked g s made)
  | access {s : Step} {made : Runner} {r : Resource} : s ∈ g.steps → p.runner? g s = some made →
      r ∈ made.access → Gives p g .access (r.madeFor s.origin)
  | trigger {s : Step} {made : Runner} {r : Resource} : s ∈ g.steps → p.runner? g s = some made →
      p.Starts s made.compute.id r → Gives p g .trigger r
  | alert {s : Step} {made : Runner} {r : Resource} : s ∈ g.steps → p.runner? g s = some made →
      p.Watches s made.compute.id r → Gives p g .alert r

section

variable {p : Provider} {g : Graph} {x y : Asset} {s : Step} {made : Runner} {r q : Resource}
  {part : Part}

theorem stored?_eq_some_iff : p.stored? x = some r ↔ ∃ spec made, x.storage = some spec ∧
    p.storage x spec = .ok made ∧ r = made.madeFor x.address.text := by
  unfold stored?
  cases x.storage with
  | none => simp
  | some spec =>
    rw [Option.bind_some]
    cases hmade : p.storage x spec with
    | error fault => simp [Except.toOption, hmade]
    | ok made => simp [Except.toOption, hmade, eq_comm (b := r)]

/-- A step uses the storage of the assets that it touches. -/
theorem mem_stored_bindings_iff {access : Access} : (access, x, r) ∈ stored (p.bindings g s) ↔
    ∃ a, (a, access) ∈ Compilation.touched s ∧ g.asset? a = some x ∧ p.stored? x = some r := by
  rw [mem_stored_iff, bindings, List.mem_filterMap]
  constructor
  · rintro ⟨⟨a, access'⟩, htouched, hb⟩
    obtain ⟨y, hy, heq⟩ := Option.map_eq_some_iff.1 hb
    simp only [Binding.mk.injEq] at heq
    obtain ⟨rfl, hr, rfl⟩ := heq
    exact ⟨a, htouched, hy, hr⟩
  · rintro ⟨a, htouched, hx, hr⟩
    refine ⟨(a, access), htouched, ?_⟩
    dsimp only
    rw [hx, Option.map_some, hr]

theorem runner?_eq_some_iff : p.runner? g s = some made ↔ p.compute s (p.bindings g s) = .ok made := by
  unfold runner?
  cases p.compute s (p.bindings g s) <;> simp [Except.toOption]

@[simp] theorem kind_linked : (p.linked g s made).kind = made.compute.kind := by simp [linked]

@[simp] theorem name_linked : (p.linked g s made).name = made.compute.name := by simp [linked]

@[simp] theorem origin_linked : (p.linked g s made).origin = s.origin := by simp [linked]

@[simp] theorem id_linked : (p.linked g s made).id = made.compute.id := by
  rw [Resource.id, Resource.id, kind_linked, name_linked]

theorem address_of_asset? {a : Address} (h : g.asset? a = some x) : x.address = a := by
  have hkey := List.find?_some h
  exact eq_of_beq hkey

/-- Assets are found by their addresses. -/
theorem asset?_eq_some_iff (hassets : (g.assets.map (·.address)).Nodup) {a : Address} :
    g.asset? a = some x ↔ x ∈ g.assets ∧ x.address = a := Graph.find?_eq_some_iff hassets

theorem storedAt?_of_mem (hassets : (g.assets.map (·.address)).Nodup) (hx : x ∈ g.assets) :
    p.storedAt? g x.address = p.stored? x := by
  unfold storedAt?
  rw [(asset?_eq_some_iff hassets).2 ⟨hx, rfl⟩, Option.bind_some]

theorem exists_of_storedAt? {a : Address} (h : p.storedAt? g a = some r) :
    ∃ x ∈ g.assets, x.address = a ∧ p.stored? x = some r := by
  obtain ⟨x, hx, hr⟩ := Option.bind_eq_some_iff.1 h
  exact ⟨x, List.mem_of_find?_eq_some hx, address_of_asset? hx, hr⟩

theorem starts_of_mem_triggers? {runner : ResourceId} {rs : List Resource}
    (h : p.triggers? s runner = some rs) (hr : r ∈ rs) : p.Starts s runner r := by
  unfold triggers? at h
  split at h
  · rw [← Option.some.inj h] at hr
    exact absurd hr List.not_mem_nil
  · rename_i schedule hschedule
    obtain ⟨t, ht, rfl⟩ := Option.map_eq_some_iff.1 h
    exact ⟨schedule, t, hschedule, toOption_eq_some_iff.1 ht, List.mem_singleton.1 hr⟩

theorem watches_of_mem_alerts? {runner : ResourceId} {rs : List Resource}
    (h : p.alerts? s runner = some rs) (hr : r ∈ rs) : p.Watches s runner r := by
  unfold alerts? at h
  split at h
  · rw [← Option.some.inj h] at hr
    exact absurd hr List.not_mem_nil
  · rename_i monitoring hmonitoring
    obtain ⟨ts, hts, rfl⟩ := Option.map_eq_some_iff.1 h
    obtain ⟨t, ht, rfl⟩ := List.mem_map.1 hr
    exact ⟨monitoring, ts, hmonitoring, toOption_eq_some_iff.1 hts, t, ht, rfl⟩

/-- What starts or watches a step depends on what runs it and on nothing else. -/
theorem dependsOn_of_starts (hp : p.Orderly) {runner : ResourceId}
    (h : p.Starts s runner r ∨ p.Watches s runner r) : r.dependsOn.toList = [runner] := by
  rcases h with ⟨schedule, t, -, ht, rfl⟩ | ⟨monitoring, ts, -, hts, t, ht, rfl⟩
  · exact Resource.toList_depend _ (hp.schedule _ _ _ _ ht).2
  · exact Resource.toList_depend _ (hp.monitoring _ _ _ _ hts _ ht).2

/-- What is put in for a step, part by part. -/
theorem pieces?_eq_some_iff {rs : List Resource} : p.pieces? g s = some rs ↔ ∃ made triggers alerts,
    p.runner? g s = some made ∧ p.triggers? s made.compute.id = some triggers ∧
    p.alerts? s made.compute.id = some alerts ∧
    rs = p.linked g s made :: (made.access.map (·.madeFor s.origin) ++ (triggers ++ alerts)) := by
  unfold pieces?
  simp only [Option.bind_eq_bind, Option.bind_eq_some_iff, Option.pure_def, Option.some.injEq]
  constructor
  · rintro ⟨made, hmade, triggers, htriggers, alerts, halerts, rfl⟩
    exact ⟨made, triggers, alerts, hmade, htriggers, halerts, rfl⟩
  · rintro ⟨made, triggers, alerts, hmade, htriggers, halerts, rfl⟩
    exact ⟨made, hmade, triggers, htriggers, alerts, halerts, rfl⟩

theorem origin_of_mem_pieces {rs : List Resource} (h : p.pieces? g s = some rs) (hr : r ∈ rs) :
    r.origin = s.origin := by
  obtain ⟨made, triggers, alerts, -, htriggers, halerts, rfl⟩ := pieces?_eq_some_iff.1 h
  rcases List.mem_cons.1 hr with rfl | hr
  · exact origin_linked
  · rcases List.mem_append.1 hr with hr | hr
    · obtain ⟨q, -, rfl⟩ := List.mem_map.1 hr
      rfl
    · rcases List.mem_append.1 hr with hr | hr
      · obtain ⟨_, t, -, -, rfl⟩ := starts_of_mem_triggers? htriggers hr
        rfl
      · obtain ⟨_, _, -, -, t, -, rfl⟩ := watches_of_mem_alerts? halerts hr
        rfl

/-- What is put in for a step plays some other part than storage. -/
theorem exists_gives_of_mem_pieces {rs : List Resource} (hs : s ∈ g.steps)
    (h : p.pieces? g s = some rs) (hr : r ∈ rs) : ∃ part, part ≠ .storage ∧ p.Gives g part r := by
  obtain ⟨made, triggers, alerts, hmade, htriggers, halerts, rfl⟩ := pieces?_eq_some_iff.1 h
  rcases List.mem_cons.1 hr with rfl | hr
  · exact ⟨_, by simp, .compute hs hmade⟩
  · rcases List.mem_append.1 hr with hr | hr
    · obtain ⟨q, hq, rfl⟩ := List.mem_map.1 hr
      exact ⟨_, by simp, .access hs hmade hq⟩
    · rcases List.mem_append.1 hr with hr | hr
      · exact ⟨_, by simp, .trigger hs hmade (starts_of_mem_triggers? htriggers hr)⟩
      · exact ⟨_, by simp, .alert hs hmade (watches_of_mem_alerts? halerts hr)⟩

/-- What a step depends on upstream is what runs the steps there. -/
theorem mem_parents_iff (hg : g.Sound) {id : ResourceId} :
    id ∈ ((g.upstream s.id).filterMap fun id => (g.step? id).bind fun t =>
      (p.runner? g t).map (·.compute.id)) ↔
      ∃ t ∈ g.steps, t.id ∈ g.upstream s.id ∧ ∃ made, p.runner? g t = some made ∧
        made.compute.id = id := by
  simp only [List.mem_filterMap, Option.bind_eq_some_iff, Option.map_eq_some_iff, hg.step?_eq_some_iff]
  constructor
  · rintro ⟨_, hu, t, ⟨ht, rfl⟩, hmade⟩
    exact ⟨t, ht, hu, hmade⟩
  · rintro ⟨t, ht, hu, hmade⟩
    exact ⟨t.id, hu, t, ⟨ht, rfl⟩, hmade⟩

theorem Makes.exists_gives (h : p.Makes g r) : ∃ part, p.Gives g part r := by
  rcases h with ⟨a, hr⟩ | ⟨s, hs, rs, hrs, hr⟩
  · obtain ⟨x, hx, -, hr⟩ := exists_of_storedAt? hr
    exact ⟨_, .storage hx hr⟩
  · obtain ⟨part, -, hgives⟩ := exists_gives_of_mem_pieces hs hrs hr
    exact ⟨part, hgives⟩

/-- A law on kinds, for each part that a resource is made for, holds of all that the provider makes of a
graph. -/
theorem Gives.kind {K : Part → String → Prop}
    (hstorage : ∀ x spec r, p.storage x spec = .ok r → K .storage r.kind)
    (hcompute : ∀ s bs made, p.compute s bs = .ok made →
      K .compute made.compute.kind ∧ ∀ q ∈ made.access, K .access q.kind)
    (hschedule : ∀ s schedule runner r, p.schedule s schedule runner = .ok r → K .trigger r.kind)
    (hmonitoring : ∀ s monitoring runner rs, p.monitoring s monitoring runner = .ok rs →
      ∀ r ∈ rs, K .alert r.kind) (h : p.Gives g part r) : K part r.kind := by
  cases h with
  | storage _ hr =>
    obtain ⟨spec, made, -, hmade, rfl⟩ := stored?_eq_some_iff.1 hr
    rw [Resource.kind_madeFor]
    exact hstorage _ _ _ hmade
  | compute _ hmade =>
    rw [kind_linked]
    exact (hcompute _ _ _ (runner?_eq_some_iff.1 hmade)).1
  | access _ hmade hr =>
    rw [Resource.kind_madeFor]
    exact (hcompute _ _ _ (runner?_eq_some_iff.1 hmade)).2 _ hr
  | trigger _ _ hr =>
    obtain ⟨schedule, t, -, ht, rfl⟩ := hr
    rw [Resource.kind_madeFor, Resource.kind_depend]
    exact hschedule _ _ _ _ ht
  | alert _ _ hr =>
    obtain ⟨monitoring, ts, -, hts, t, ht, rfl⟩ := hr
    rw [Resource.kind_madeFor, Resource.kind_depend]
    exact hmonitoring _ _ _ _ hts t ht

/-- A resource plays the part that it is made for. -/
theorem Gives.plays (hp : p.Orderly) (h : p.Gives g part r) : r.Plays part := by
  obtain ⟨_, hstorage⟩ := hp.storage
  obtain ⟨_, hcompute⟩ := hp.compute
  refine Gives.kind (K := fun part kind => kind ∈ part.kinds) (fun x spec r hr => (hstorage x spec r hr).1)
    (fun s bs made hmade => ?_) (fun s schedule runner r hr => (hp.schedule s schedule runner r hr).1)
    (fun s monitoring runner rs hrs r hr => (hp.monitoring s monitoring runner rs hrs r hr).1) h
  obtain ⟨hplays, -, -, haccess⟩ := hcompute s bs made hmade
  exact ⟨hplays, haccess⟩

variable {cast : String → Part} (hp : p.Legible cast)

include hp

/-- A resource stands for the part that it is made for. -/
theorem Gives.standsFor (h : p.Gives g part r) : r.StandsFor cast part := by
  obtain ⟨_, _, hstorage⟩ := hp.storage
  obtain ⟨_, _, hcompute⟩ := hp.compute
  refine Gives.kind (K := fun part kind => cast kind = part ∧ '.' ∉ kind.toList)
    (fun x spec r hr => (hstorage x spec r hr).1) (fun s bs made hmade => ?_) hp.schedule hp.monitoring h
  obtain ⟨hstands, -, haccess⟩ := hcompute s bs made hmade
  exact ⟨hstands, haccess⟩

/-- Resources of one name play one part. -/
theorem Gives.eq_part {part' : Part} (h : p.Gives g part r) (h' : p.Gives g part' q)
    (hid : q.id = r.id) : part' = part := (h'.standsFor hp).eq_of_id (h.standsFor hp) hid

/-- Storage has the name of nothing that is put in for a step. -/
theorem id_ne_of_mem_pieces {a : Address} {rs : List Resource} (hr : p.storedAt? g a = some r)
    (hs : s ∈ g.steps) (hrs : p.pieces? g s = some rs) (hq : q ∈ rs) : q.id ≠ r.id := by
  intro hid
  obtain ⟨x, hx, -, hr⟩ := exists_of_storedAt? hr
  obtain ⟨part, hne, hgives⟩ := exists_gives_of_mem_pieces hs hrs hq
  exact hne ((Gives.storage hx hr).eq_part hp hgives hid)

variable (hg : g.Sound) (hassets : (g.assets.map (·.address)).Nodup)
  (hdigest : Set.InjOn Naming.digest g.hashed)

include hassets hdigest

/-- Storage with one name and one origin is of one asset. -/
theorem asset_eq_of_stored (hx : x ∈ g.assets) (hr : p.stored? x = some r) (hy : y ∈ g.assets)
    (hq : p.stored? y = some q) (hid : q.id = r.id) (horigin : q.origin = r.origin) : y = x := by
  have hnames := (((Gives.storage hy hq).standsFor hp).of_id ((Gives.storage hx hr).standsFor hp) hid).2
  obtain ⟨room, sep, hstorage⟩ := hp.storage
  obtain ⟨spec, made, hspec, hmade, rfl⟩ := stored?_eq_some_iff.1 hr
  obtain ⟨spec', made', hspec', hmade', rfl⟩ := stored?_eq_some_iff.1 hq
  rw [Resource.name_madeFor, Resource.name_madeFor, (hstorage _ _ _ hmade).2,
    (hstorage _ _ _ hmade').2] at hnames
  have hlocation : y.address.location = x.address.location :=
    hdigest (.inl ⟨y, hy, by simp [hspec'], rfl⟩) (.inl ⟨x, hx, by simp [hspec], rfl⟩)
      (Naming.storage_digest hnames)
  have haddress := Address.eq_of_text_of_location horigin hlocation
  exact List.inj_on_of_nodup_map hassets hy hx haddress

/-- **Storage is told apart by its name and its origin.** -/
theorem eq_of_stored (hx : x ∈ g.assets) (hr : p.stored? x = some r) (hq : p.Gives g part q)
    (hid : q.id = r.id) (horigin : q.origin = r.origin) : q = r := by
  obtain rfl := (Gives.storage hx hr).eq_part hp hq hid
  cases hq with
  | storage hy hq =>
    obtain rfl := asset_eq_of_stored hp hassets hdigest hx hr hy hq hid horigin
    exact Option.some.inj (hq.symm.trans hr)

include hg

omit hassets

omit hp in
/-- Steps of one name and one origin are one step. -/
theorem step_eq_of_name {t : Step} (hs : s ∈ g.steps) (ht : t ∈ g.steps) {room room' : ℕ} {sep : Char}
    (hname : Naming.step t room' sep = Naming.step s room sep) (horigin : t.origin = s.origin) : t = s := by
  have hidentity : Naming.identity t.output.address = Naming.identity s.output.address :=
    hdigest (.inr ⟨t, ht, rfl⟩) (.inr ⟨s, hs, rfl⟩) (Naming.step_digest hname)
  exact hg.eq_of_output_eq ht hs
    (Address.eq_of_text_of_identity ((String.append_right_inj _).1 horigin) hidentity)

/-- What runs steps with one name and one origin runs one step. -/
theorem step_eq_of_linked {t : Step} {made' : Runner} (hs : s ∈ g.steps)
    (hmade : p.runner? g s = some made) (ht : t ∈ g.steps) (hmade' : p.runner? g t = some made')
    (hid : made'.compute.id = made.compute.id) (horigin : t.origin = s.origin) : t = s := by
  have hid : (p.linked g t made').id = (p.linked g s made).id := by rwa [id_linked, id_linked]
  have hnames := (((Gives.compute ht hmade').standsFor hp).of_id ((Gives.compute hs hmade).standsFor hp)
    hid).2
  obtain ⟨room, sep, hcompute⟩ := hp.compute
  rw [name_linked, name_linked, (hcompute _ _ _ (runner?_eq_some_iff.1 hmade)).2.1,
    (hcompute _ _ _ (runner?_eq_some_iff.1 hmade')).2.1] at hnames
  exact step_eq_of_name hg hdigest hs ht hnames horigin

/-- **What runs a step is told apart by its name and its origin.** -/
theorem eq_of_linked (hs : s ∈ g.steps) (hmade : p.runner? g s = some made) (hq : p.Gives g part q)
    (hid : q.id = (p.linked g s made).id) (horigin : q.origin = (p.linked g s made).origin) :
    q = p.linked g s made := by
  obtain rfl := (Gives.compute hs hmade).eq_part hp hq hid
  cases hq with
  | compute ht hmade' =>
    rw [id_linked, id_linked] at hid
    rw [origin_linked, origin_linked] at horigin
    obtain rfl := step_eq_of_linked hp hg hdigest hs hmade ht hmade' hid horigin
    rw [Option.some.inj (hmade'.symm.trans hmade)]

end

end Provider

/-! ## Runs -/

/-- The resources that are put in while some steps are done, the last one first: storage at any time, and
all that is put in for a step together. -/
inductive Provider.Log (p : Provider) (g : Graph) : List Step → List Resource → Prop
  | start : Log p g [] []
  | storage {done : List Step} {log : List Resource} {a : Address} {r : Resource} :
      p.storedAt? g a = some r → Log p g done log → Log p g done (r :: log)
  | step {done : List Step} {log rs : List Resource} {s : Step} : s ∈ g.steps →
      p.pieces? g s = some rs → Log p g done log → Log p g (done ++ [s]) (rs.reverse ++ log)

namespace Provider

variable {p : Provider} {g : Graph} {done : List Step} {log : List Resource} {r : Resource}

/-- Nothing else is put in than what the provider makes of the graph. -/
theorem Log.makes (h : p.Log g done log) (hr : r ∈ log) : p.Makes g r := by
  induction h with
  | start => exact absurd hr List.not_mem_nil
  | storage hq _ ih =>
    rcases List.mem_cons.1 hr with rfl | hr
    · exact .inl ⟨_, hq⟩
    · exact ih hr
  | step hs hrs _ ih =>
    rcases List.mem_append.1 hr with hr | hr
    · exact .inr ⟨_, hs, _, hrs, List.mem_reverse.1 hr⟩
    · exact ih hr

theorem Log.mem_steps (h : p.Log g done log) {t : Step} (ht : t ∈ done) : t ∈ g.steps := by
  induction h with
  | start => exact absurd ht List.not_mem_nil
  | storage _ _ ih => exact ih ht
  | step hs _ _ ih =>
    rcases List.mem_append.1 ht with ht | ht
    · exact ih ht
    · exact List.mem_singleton.1 ht ▸ hs

/-- All that belongs to a step that is done is put in. -/
theorem Log.exists_pieces (h : p.Log g done log) {t : Step} (ht : t ∈ done) :
    ∃ rs, p.pieces? g t = some rs ∧ ∀ r ∈ rs, r ∈ log := by
  induction h with
  | start => exact absurd ht List.not_mem_nil
  | storage _ _ ih =>
    obtain ⟨rs, hrs, hmem⟩ := ih ht
    exact ⟨rs, hrs, fun r hr => List.mem_cons_of_mem _ (hmem r hr)⟩
  | step hs hrs _ ih =>
    rcases List.mem_append.1 ht with ht | ht
    · obtain ⟨rs, hrs, hmem⟩ := ih ht
      exact ⟨rs, hrs, fun r hr => List.mem_append_right _ (hmem r hr)⟩
    · obtain rfl := List.mem_singleton.1 ht
      exact ⟨_, hrs, fun r hr => List.mem_append_left _ (List.mem_reverse.2 hr)⟩

end Provider

namespace Compilation

variable {p : Provider} {g : Graph} {c c' : Compilation} {s : Step} {done : List Step}
  {log rs : List Resource}

/-! ### What is put in -/

/-- Putting resources in changes the plan only. -/
theorem exists_plan_of_insertAll (hc : rs.foldlM insert c = .ok c') (h : c.plan.Lists log) :
    ∃ plan, c' = { c with plan } ∧ plan.provider = c.plan.provider ∧ plan.Lists (rs.reverse ++ log) := by
  refine of_foldlM_eq_ok (P := fun put c' => ∃ plan, c' = { c with plan } ∧
    plan.provider = c.plan.provider ∧ plan.Lists (put.reverse ++ log)) hc ⟨c.plan, rfl, rfl, h⟩ ?_
  rintro put r _ - _ c₂ ⟨plan, rfl, hprovider, hlists⟩ hinsert
  obtain ⟨plan', hplan, rfl⟩ := insert_eq_ok_iff.1 hinsert
  rw [List.reverse_append, List.reverse_singleton, List.singleton_append]
  exact ⟨plan', rfl, (Plan.provider_of_insert hplan).trans hprovider, hlists.insert hplan⟩

/-- **What is put in for an address** that was not looked at before: its storage, if it has any. -/
theorem ensureStore_eq_ok_iff {a : Address} (hnew : ¬ (c.stores.lookup a).isSome) :
    ensureStore p Hooks.none g c a = .ok c' ↔ p.Expresses g a ∧ ∃ c₁,
      (p.storedAt? g a).toList.foldlM insert c = .ok c₁ ∧
      c' = { c₁ with
        calls := c₁.calls ++ ((g.asset? a).toList.filter (·.storage.isSome)).map .storage
        stores := c₁.stores ++ [(a, (p.storedAt? g a).map Resource.id)] } := by
  unfold ensureStore Provider.Expresses Provider.storedAt?
  rw [if_neg hnew]
  cases hx : g.asset? a with
  | none => simp [pure, Except.pure, eq_comm (a := c')]
  | some x =>
    obtain rfl := Provider.address_of_asset? hx
    unfold Provider.stored?
    cases hspec : x.storage with
    | none => simp [hspec, pure, Except.pure, eq_comm (a := c')]
    | some spec =>
      cases hmade : p.storage x spec with
      | error fault => simp [hspec, hmade, Except.toOption, bind, Except.bind]
      | ok made =>
        cases hinsert : c.insert (made.madeFor x.address.text) <;>
          simp [hspec, hmade, hinsert, Except.toOption, bind, Except.bind, pure, Except.pure, Hooks.apply,
            Hooks.none, eq_comm (a := c')]

theorem addTrigger_eq_ok_iff {runner : ResourceId} : addTrigger p s runner c = .ok c' ↔
    ∃ triggers, p.triggers? s runner = some triggers ∧ triggers.foldlM insert c = .ok c' := by
  unfold addTrigger Provider.triggers?
  cases s.task.schedule with
  | none => simp [pure, Except.pure]
  | some schedule =>
    cases ht : p.schedule s schedule runner with
    | error fault => simp [bind, Except.bind, Except.toOption, ht]
    | ok t =>
      simp only [bind, Except.bind, Except.toOption, ht, Option.map_some, Option.some.injEq,
        exists_eq_left', List.foldlM_cons, List.foldlM_nil]
      cases c.insert ((t.depend runner).madeFor s.origin) <;> rfl

theorem addAlerts_eq_ok_iff {runner : ResourceId} : addAlerts p s runner c = .ok c' ↔
    ∃ alerts, p.alerts? s runner = some alerts ∧ alerts.foldlM insert c = .ok c' := by
  unfold addAlerts Provider.alerts?
  cases s.task.monitoring with
  | none => simp [pure, Except.pure]
  | some monitoring =>
    cases ht : p.monitoring s monitoring runner with
    | error fault => simp [bind, Except.bind, Except.toOption, ht]
    | ok t => simp [bind, Except.bind, Except.toOption, ht, List.foldlM_map]

/-- **What is put in for a step**, once its storage is made: what runs it, its access resources, and what
starts and watches it. -/
theorem addStep_eq_ok_iff : addStep p Hooks.none g c s = .ok c' ↔
    ∃ c₁ c₂ made triggers alerts,
    ((touched s).map (·.1)).foldlM (ensureStore p Hooks.none g) c = .ok c₁ ∧
    p.compute s (bindings g c₁ s) = .ok made ∧
    p.triggers? s made.compute.id = some triggers ∧ p.alerts? s made.compute.id = some alerts ∧
    ((((made.compute.madeFor s.origin).dependAll
      ((touched s).filterMap fun t => c₁.store? t.1)).dependAll
        (made.access.map Resource.id)).dependAll
          ((g.upstream s.id).filterMap fun id => c₁.runners.lookup id) ::
      (made.access.map (·.madeFor s.origin) ++ (triggers ++ alerts))).foldlM insert
        { c₁ with calls := c₁.calls ++ [.compute s (bindings g c₁ s)] } = .ok c₂ ∧
    c' = { c₂ with runners := c₂.runners ++ [(s.id, made.compute.id)] } := by
  have hid : ∀ (r : Resource) (ids : List String), (r.dependAll ids).id = r.id := fun r ids => by
    rw [Resource.id, Resource.id, Resource.kind_dependAll, Resource.name_dependAll]
  unfold addStep makeRunner
  simp only [bind_eq_ok_iff, addTrigger_eq_ok_iff, addAlerts_eq_ok_iff, List.foldlM_cons,
    List.foldlM_append, List.foldlM_map, Hooks.apply, Hooks.none, List.foldl_nil]
  constructor
  · rintro ⟨c₁, hstores, ⟨_, _⟩, ⟨made, hmade, hpair⟩, c₂, hrunner, c₃, haccess, c₄,
      ⟨triggers, htriggers, hstart⟩, c₅, ⟨alerts, halerts, hwatch⟩, hc⟩
    obtain ⟨rfl, rfl⟩ := Prod.mk.inj (Except.ok.inj hpair)
    obtain rfl := Except.ok.inj hc
    dsimp only at htriggers halerts
    rw [hid, hid, hid, Resource.id_madeFor] at htriggers halerts
    refine ⟨c₁, c₅, made, triggers, alerts, hstores, hmade, htriggers, halerts,
      ⟨c₂, hrunner, c₃, haccess, c₄, hstart, hwatch⟩, ?_⟩
    rw [hid, hid, hid, Resource.id_madeFor]
  · rintro ⟨c₁, c₅, made, triggers, alerts, hstores, hmade, htriggers, halerts,
      ⟨c₂, hrunner, c₃, haccess, c₄, hstart, hwatch⟩, rfl⟩
    refine ⟨c₁, hstores, _, ⟨made, hmade, rfl⟩, c₂, hrunner, c₃, haccess, c₄, ⟨triggers, ?_, hstart⟩, c₅,
      ⟨alerts, ?_, hwatch⟩, ?_⟩
    · rwa [hid, hid, hid, Resource.id_madeFor]
    · rwa [hid, hid, hid, Resource.id_madeFor]
    · rw [hid, hid, hid, Resource.id_madeFor]
      rfl

/-- A step is bound to the storage that the provider makes for what it touches, if the plan shows it. -/
theorem bindings_eq (h : ∀ t ∈ touched s, ∀ x, g.asset? t.1 = some x →
    (c.store? t.1).bind c.plan.get? = p.stored? x) : bindings g c s = p.bindings g s := by
  unfold bindings Provider.bindings
  refine List.filterMap_congr fun t ht => ?_
  obtain ⟨a, access⟩ := t
  dsimp only
  cases hx : g.asset? a with
  | none => rfl
  | some x => rw [Option.map_some, Option.map_some, h (a, access) ht x hx]

/-- What runs a step depends on the storage of what it touches, and on what runs the steps before it. -/
theorem linked_eq {rest : List Step} (hg : g.Sound) (hsteps : g.steps = done ++ s :: rest)
    (hstores : ∀ t ∈ touched s, c.store? t.1 = (p.storedAt? g t.1).map Resource.id)
    (hrunners : ∀ t ∈ done, ∃ made, p.runner? g t = some made ∧
      c.runners.lookup t.id = some made.compute.id) (made : Runner) :
    (((made.compute.madeFor s.origin).dependAll ((touched s).filterMap fun t => c.store? t.1)).dependAll
      (made.access.map Resource.id)).dependAll
        ((g.upstream s.id).filterMap fun id => c.runners.lookup id) = p.linked g s made := by
  have hs : s ∈ g.steps := by rw [hsteps]; simp
  have hparents : ((g.upstream s.id).filterMap fun id => c.runners.lookup id) =
      (g.upstream s.id).filterMap fun id => (g.step? id).bind fun t =>
        (p.runner? g t).map (·.compute.id) := by
    refine List.filterMap_congr fun id hid => ?_
    obtain ⟨t, ht, rfl, hreads⟩ := (hg.mem_upstream_iff hs).1 hid
    obtain ⟨made, hmade, hlookup⟩ := hrunners t (hg.mem_before_of_readsFrom hsteps ht hreads)
    rw [hlookup, (hg.step?_eq_some_iff).2 ⟨ht, rfl⟩, Option.bind_some, hmade, Option.map_some]
  rw [List.filterMap_congr hstores, hparents]
  rfl

/-- The runner of a step is noted after those of the steps before it. -/
theorem lookup_note {rest : List Step} (hg : g.Sound) (hsteps : g.steps = done ++ s :: rest)
    (hids : c.runners.map (·.1) = done.map (·.id)) (runner : ResourceId) :
    (c.runners ++ [(s.id, runner)]).lookup s.id = some runner ∧
      ∀ t ∈ done, (c.runners ++ [(s.id, runner)]).lookup t.id = c.runners.lookup t.id := by
  have hnodup := hg.ordered.ids
  rw [hsteps, List.map_append, List.map_cons] at hnodup
  have hnew : s.id ∉ done.map (·.id) :=
    fun hmem => (List.disjoint_of_nodup_append hnodup) hmem List.mem_cons_self
  have hlookup : ∀ id, (c.runners ++ [(s.id, runner)]).lookup id =
      if id = s.id then some runner else c.runners.lookup id :=
    fun id => lookup_append_singleton id _ (hids ▸ hnew)
  refine ⟨(hlookup s.id).trans (if_pos rfl), fun t ht => (hlookup t.id).trans (if_neg fun heq => ?_)⟩
  exact hnew (heq ▸ List.mem_map_of_mem ht)

/-! ### The state of a run -/

/-- The state of a compilation after some steps. -/
structure Follows (p : Provider) (g : Graph) (done : List Step) (log : List Resource)
    (c : Compilation) : Prop where
  provider : c.plan.provider = p.name
  plan : c.plan.Lists log
  logged : p.Log g done log
  stores : ∀ a o, c.stores.lookup a = some o → o = (p.storedAt? g a).map Resource.id ∧
    (∀ r, p.storedAt? g a = some r → r ∈ log) ∧ p.Expresses g a
  ids : c.runners.map (·.1) = done.map (·.id)
  runners : ∀ t ∈ done, ∃ made, p.runner? g t = some made ∧
    c.runners.lookup t.id = some made.compute.id

theorem follows_start : Follows p g [] [] (start p) where
  provider := rfl
  plan := Plan.lists_empty _
  logged := .start
  stores a o h := absurd h (by simp [start])
  ids := rfl
  runners _ ht := absurd ht List.not_mem_nil

/-- Looking at an address makes its storage. -/
theorem Follows.ensureStore {a : Address} (h : Follows p g done log c)
    (hc : ensureStore p Hooks.none g c a = .ok c') : ∃ log', log ⊆ log' ∧ Follows p g done log' c' ∧
      c'.runners = c.runners ∧ ∀ b, (c.stores.lookup b).isSome ∨ b = a → (c'.stores.lookup b).isSome := by
  by_cases hlooked : (c.stores.lookup a).isSome
  · unfold Compilation.ensureStore at hc
    rw [if_pos hlooked] at hc
    obtain rfl := Except.ok.inj hc
    exact ⟨log, List.Subset.refl _, h, rfl, fun b hb => hb.elim id fun heq => heq ▸ hlooked⟩
  · obtain ⟨hexpresses, c₁, hinsert, rfl⟩ := (ensureStore_eq_ok_iff hlooked).1 hc
    obtain ⟨plan, rfl, hprovider, hlists⟩ := exists_plan_of_insertAll hinsert h.plan
    refine ⟨(p.storedAt? g a).toList.reverse ++ log, List.subset_append_right _ _,
      ⟨hprovider.trans h.provider, hlists, ?_, fun b o hb => ?_, h.ids, h.runners⟩, rfl,
      fun b hb => isSome_lookup_append_pair.2 hb⟩
    · cases hr : p.storedAt? g a with
      | none => exact h.logged
      | some r => exact .storage hr h.logged
    · rcases of_lookup_append_pair hb with hb | ⟨rfl, rfl⟩
      · obtain ⟨ho, hlog, hexpresses⟩ := h.stores b o hb
        exact ⟨ho, fun r hr => List.mem_append_right _ (hlog r hr), hexpresses⟩
      · refine ⟨rfl, fun r hr => ?_, hexpresses⟩
        rw [hr]
        exact List.mem_cons_self

/-- Looking at addresses makes their storage. -/
theorem Follows.ensureAll {as : List Address} (h : Follows p g done log c)
    (hc : as.foldlM (Compilation.ensureStore p Hooks.none g) c = .ok c') : ∃ log', log ⊆ log' ∧
      Follows p g done log' c' ∧ c'.runners = c.runners ∧
      ∀ a, (c.stores.lookup a).isSome ∨ a ∈ as → (c'.stores.lookup a).isSome := by
  refine of_foldlM_eq_ok (P := fun looked c' => ∃ log', log ⊆ log' ∧ Follows p g done log' c' ∧
    c'.runners = c.runners ∧ ∀ a, (c.stores.lookup a).isSome ∨ a ∈ looked → (c'.stores.lookup a).isSome) hc
    ⟨log, List.Subset.refl _, h, rfl, fun a ha => ha.resolve_right List.not_mem_nil⟩ ?_
  rintro looked a _ - c₁ c₂ ⟨log₁, hsub₁, h₁, hrunners₁, hlooked₁⟩ hnext
  obtain ⟨log₂, hsub₂, h₂, hrunners₂, hlooked₂⟩ := h₁.ensureStore hnext
  refine ⟨log₂, List.Subset.trans hsub₁ hsub₂, h₂, hrunners₂.trans hrunners₁, fun b hb => hlooked₂ b ?_⟩
  rw [List.mem_append, List.mem_singleton, ← or_assoc] at hb
  exact hb.imp_left (hlooked₁ b)

/-- The storage of an address that was looked at. -/
theorem Follows.store?_eq {a : Address} (h : Follows p g done log c) (ha : (c.stores.lookup a).isSome) :
    c.store? a = (p.storedAt? g a).map Resource.id := by
  obtain ⟨o, ho⟩ := Option.isSome_iff_exists.1 ha
  unfold store?
  rw [ho]
  exact (h.stores a o ho).1

section

variable (hp : p.Orderly) (hg : g.Sound) (hassets : (g.assets.map (·.address)).Nodup)
  (hdigest : Set.InjOn Naming.digest g.hashed)

include hp hassets hdigest

/-- A step is bound to the storage that was made for what it touches. -/
theorem Follows.bindings_eq (h : Follows p g done log c)
    (hlooked : ∀ t ∈ touched s, (c.stores.lookup t.1).isSome) : bindings g c s = p.bindings g s := by
  refine Compilation.bindings_eq fun t ht x hx => ?_
  obtain ⟨hmem, haddress⟩ := (Provider.asset?_eq_some_iff hassets).1 hx
  have hstored : p.storedAt? g t.1 = p.stored? x := by
    unfold Provider.storedAt?
    rw [hx, Option.bind_some]
  rw [h.store?_eq (hlooked t ht), hstored]
  cases hr : p.stored? x with
  | none => rfl
  | some r =>
    obtain ⟨o, ho⟩ := Option.isSome_iff_exists.1 (hlooked t ht)
    rw [Option.map_some, Option.bind_some]
    refine h.plan.get?_of_unique ((h.stores _ o ho).2.1 r (hstored.trans hr)) fun q hq hid horigin => ?_
    obtain ⟨part, hq⟩ := (h.logged.makes hq).exists_gives
    exact Provider.eq_of_stored hp.legible hassets hdigest hmem hr hq hid horigin

include hg

/-- **One step of a run**, after the steps that it reads from. -/
theorem Follows.addStep {rest : List Step} (hsteps : g.steps = done ++ s :: rest)
    (h : Follows p g done log c) (hc : addStep p Hooks.none g c s = .ok c') :
    ∃ log', Follows p g (done ++ [s]) log' c' := by
  obtain ⟨c₁, c₂, made, triggers, alerts, hstores, hmade, htriggers, halerts, hinserts, rfl⟩ :=
    addStep_eq_ok_iff.1 hc
  obtain ⟨log₁, -, h₁, hrunners₁, hlooked⟩ := h.ensureAll hstores
  have hlooked : ∀ t ∈ touched s, (c₁.stores.lookup t.1).isSome :=
    fun t ht => hlooked t.1 (.inr (List.mem_map_of_mem ht))
  have hs : s ∈ g.steps := by rw [hsteps]; simp
  rw [h₁.bindings_eq hp hassets hdigest hlooked] at hmade
  have hrunner : p.runner? g s = some made := Provider.runner?_eq_some_iff.2 hmade
  rw [Compilation.linked_eq hg hsteps (fun t ht => h₁.store?_eq (hlooked t ht)) h₁.runners] at hinserts
  have hpieces := Provider.pieces?_eq_some_iff.2 ⟨made, triggers, alerts, hrunner, htriggers, halerts, rfl⟩
  obtain ⟨plan, rfl, hprovider, hlists⟩ := exists_plan_of_insertAll hinserts h₁.plan
  obtain ⟨hself, hother⟩ := lookup_note hg hsteps h₁.ids made.compute.id
  refine ⟨_, hprovider.trans h₁.provider, hlists, .step hs hpieces h₁.logged, fun a o ha => ?_, ?_,
    fun t ht => ?_⟩
  · obtain ⟨ho, hlog, hexpresses⟩ := h₁.stores a o ha
    exact ⟨ho, fun r hr => List.mem_append_right _ (hlog r hr), hexpresses⟩
  · rw [List.map_append, List.map_append, h₁.ids]
    rfl
  · dsimp only
    rcases List.mem_append.1 ht with ht | ht
    · rw [hother t ht]
      exact h₁.runners t ht
    · obtain rfl := List.mem_singleton.1 ht
      exact ⟨made, hrunner, hself⟩

/-- **A run** over the steps that are left. -/
theorem Follows.addSteps {rest : List Step} (hsteps : g.steps = done ++ rest)
    (h : Follows p g done log c) (hc : rest.foldlM (Compilation.addStep p Hooks.none g) c = .ok c') :
    ∃ log', Follows p g g.steps log' c' := by
  rw [hsteps]
  refine of_foldlM_eq_ok (P := fun more c' => ∃ log', Follows p g (done ++ more) log' c') hc
    ⟨log, by rwa [List.append_nil]⟩ ?_
  rintro more s after rfl c₁ c₂ ⟨log₁, h₁⟩ hnext
  rw [← List.append_assoc] at hsteps ⊢
  exact h₁.addStep hp hg hassets hdigest hsteps hnext

/-- After a run all steps are done, and all assets were looked at. -/
theorem follows_of_run (hsteps : g.steps.foldlM (Compilation.addStep p Hooks.none g) (start p) = .ok c)
    (hassets' : (g.assets.map (·.address)).foldlM (Compilation.ensureStore p Hooks.none g) c = .ok c') :
    ∃ log, Follows p g g.steps log c' ∧ ∀ x ∈ g.assets, (c'.stores.lookup x.address).isSome := by
  obtain ⟨log₁, h₁⟩ := follows_start.addSteps hp hg hassets hdigest (List.nil_append _).symm hsteps
  obtain ⟨log₂, -, h₂, -, hlooked⟩ := h₁.ensureAll hassets'
  exact ⟨log₂, h₂, fun x hx => hlooked _ (.inr (List.mem_map_of_mem hx))⟩

end

end Compilation

/-! ## Plans -/

/-- A plan is made in two runs, over the steps and over the assets, and is checked. -/
theorem Plan.ofGraph_eq_ok_iff {p : Provider} {g : Graph} {plan : Plan} :
    Plan.ofGraph p Hooks.none g = .ok plan ↔ ∃ c c',
      g.steps.foldlM (Compilation.addStep p Hooks.none g) (Compilation.start p) = .ok c ∧
      (g.assets.map (·.address)).foldlM (Compilation.ensureStore p Hooks.none g) c = .ok c' ∧
      c'.plan.checked = .ok plan := by
  unfold Plan.ofGraph Compilation.ofGraph
  simp only [map_eq_ok_iff, bind_eq_ok_iff, pure, Except.pure, Except.ok.injEq]
  constructor
  · rintro ⟨_, ⟨c, hsteps, c', hassets, plan, hchecked, rfl⟩, rfl⟩
    exact ⟨c, c', hsteps, hassets, hchecked⟩
  · rintro ⟨c, c', hsteps, hassets, hchecked⟩
    exact ⟨_, ⟨c, hsteps, c', hassets, plan, hchecked, rfl⟩, rfl⟩

/-- The plan holds what a provider makes of a graph: the storage of all assets and what runs the steps,
something of the origin of the step under the name of each access resource, and nothing else. -/
structure Plan.Renders (p : Provider) (g : Graph) (plan : Plan) : Prop where
  gives : ∀ id r, plan.get? id = some r → r.id = id ∧ ∃ part, p.Gives g part r
  storage : ∀ x ∈ g.assets, x.storage.isSome → ∃ r, p.stored? x = some r ∧ plan.get? r.id = some r
  compute : ∀ s ∈ g.steps, ∃ made, p.runner? g s = some made ∧
    plan.get? made.compute.id = some (p.linked g s made) ∧
    ∀ q ∈ made.access, ∃ held, plan.get? q.id = some held ∧ held.origin = s.origin

/-- **What a plan holds.** -/
theorem Plan.renders_of_ofGraph {p : Provider} {g : Graph} (hp : p.Orderly) (hg : g.Sound)
    (hassets : (g.assets.map (·.address)).Nodup) (hdigest : Set.InjOn Naming.digest g.hashed)
    {plan : Plan} (h : Plan.ofGraph p Hooks.none g = .ok plan) : plan.Renders p g := by
  obtain ⟨c, c', hsteps, hlast, hchecked⟩ := ofGraph_eq_ok_iff.1 h
  obtain rfl := Plan.eq_of_checked hchecked
  obtain ⟨log, hfollows, hlooked⟩ := Compilation.follows_of_run hp hg hassets hdigest hsteps hlast
  refine ⟨fun id r hr => ?_, fun x hx hstorage => ?_, fun s hs => ?_⟩
  · obtain ⟨hmem, hid⟩ := hfollows.plan.mem_of_get? hr
    exact ⟨hid, (hfollows.logged.makes hmem).exists_gives⟩
  · obtain ⟨o, ho⟩ := Option.isSome_iff_exists.1 (hlooked x hx)
    obtain ⟨-, hlog, hexpresses⟩ := hfollows.stores _ o ho
    obtain ⟨r, hr⟩ := Option.isSome_iff_exists.1
      (hexpresses x ((Provider.asset?_eq_some_iff hassets).2 ⟨hx, rfl⟩) hstorage)
    refine ⟨r, hr, hfollows.plan.get?_of_unique (hlog r ((Provider.storedAt?_of_mem hassets hx).trans hr))
      fun q hq hid horigin => ?_⟩
    obtain ⟨part, hq⟩ := (hfollows.logged.makes hq).exists_gives
    exact Provider.eq_of_stored hp.legible hassets hdigest hx hr hq hid horigin
  · obtain ⟨rs, hrs, hlog⟩ := hfollows.logged.exists_pieces hs
    obtain ⟨made, triggers, alerts, hmade, -, -, rfl⟩ := Provider.pieces?_eq_some_iff.1 hrs
    obtain ⟨hlinked, hrest⟩ := List.forall_mem_cons.1 hlog
    refine ⟨made, hmade, ?_, fun q hq => ?_⟩
    · rw [← @Provider.id_linked p g s made]
      refine hfollows.plan.get?_of_unique hlinked fun q hq hid horigin => ?_
      obtain ⟨part, hq⟩ := (hfollows.logged.makes hq).exists_gives
      exact Provider.eq_of_linked hp.legible hg hdigest hs hmade hq hid horigin
    · have haccess := hrest _ (List.mem_append_left _ (List.mem_map_of_mem hq))
      obtain ⟨held, -, hget, -, horigin⟩ := hfollows.plan.exists_get? haccess
      exact ⟨held, hget, horigin⟩

end Provenance
