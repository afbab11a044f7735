import Mathlib.Data.List.Forall2
import Provenance.Proofs.Infra.Compile

/-!
# Names without properties

Storage is looked up again when a step is bound to it, and what is found under its name need not be what
was made for it: another resource of the same origin may have taken the name.  Then it still has that name.
A provider is `Nominal` if no more is needed: bound to storage of the same names, a step is translated into
resources of the same names, or not at all.

The four providers are.  So the names of all that is put in for a graph are known without the properties
(`Provider.Echoes`), whatever digests there are.
-/

namespace Provenance

/-- Two resources have one kind and one name. -/
structure Resource.Namesake (r q : Resource) : Prop where
  kind : r.kind = q.kind
  name : r.name = q.name

namespace Resource

variable {r q t : Resource}

theorem Namesake.refl (r : Resource) : r.Namesake r := ⟨rfl, rfl⟩

theorem Namesake.trans (h : r.Namesake q) (h' : q.Namesake t) : r.Namesake t :=
  ⟨h.kind.trans h'.kind, h.name.trans h'.name⟩

theorem Namesake.symm (h : r.Namesake q) : q.Namesake r := ⟨h.kind.symm, h.name.symm⟩

theorem Namesake.id_eq (h : r.Namesake q) : r.id = q.id := by
  rw [Resource.id, Resource.id, h.kind, h.name]

/-- Where there is no point in the kinds, a name in a plan tells kind and name. -/
theorem namesake_of_id_eq (hr : '.' ∉ r.kind.toList) (hq : '.' ∉ q.kind.toList) (h : r.id = q.id) :
    r.Namesake q := by
  obtain ⟨hkind, hname⟩ := idOf_inj hr hq h
  exact ⟨hkind, hname⟩

theorem namesake_madeFor (r : Resource) (origin : String) : (r.madeFor origin).Namesake r := ⟨rfl, rfl⟩

theorem namesake_dependAll (r : Resource) (ids : List ResourceId) : (r.dependAll ids).Namesake r :=
  ⟨kind_dependAll _ _, name_dependAll _ _⟩

end Resource

/-- Two bindings are to one asset, for one use, and to storage of one name. -/
structure Binding.Namesake (b b' : Binding) : Prop where
  asset : b.asset = b'.asset
  access : b.access = b'.access
  resource : Option.Rel Resource.Namesake b.resource b'.resource

/-- Bound to storage of the same names, a step is translated into resources of the same names. -/
def Provider.Nominal (p : Provider) : Prop :=
  ∀ s bs bs', List.Forall₂ Binding.Namesake bs bs' → ∀ made, p.compute s bs = .ok made →
    ∃ made', p.compute s bs' = .ok made' ∧ made.compute.Namesake made'.compute ∧
      List.Forall₂ Resource.Namesake made.access made'.access

/-- Bindings that are alike in names use storage of the same names. -/
theorem forall₂_stored {bs bs' : List Binding} (h : List.Forall₂ Binding.Namesake bs bs') :
    List.Forall₂ (fun e e' => e.1 = e'.1 ∧ e.2.2.Namesake e'.2.2) (stored bs) (stored bs') := by
  unfold stored
  refine List.rel_filterMap (fun b b' hb => ?_) h
  obtain ⟨-, haccess, hresource⟩ := hb
  cases hr : b.resource with
  | none =>
    rw [hr] at hresource
    cases hr' : b'.resource with
    | none => exact .none
    | some q =>
      rw [hr'] at hresource
      nomatch hresource
  | some r =>
    rw [hr] at hresource
    cases hr' : b'.resource with
    | none =>
      rw [hr'] at hresource
      nomatch hresource
    | some q =>
      rw [hr'] at hresource
      cases hresource with
      | some hrq => exact .some ⟨haccess, hrq⟩

/-- What is made for each use of storage has the same names, if its name goes by that of the storage. -/
theorem forall₂_map_stored (f : Access → Resource → Resource) {bs bs' : List Binding}
    (h : List.Forall₂ Binding.Namesake bs bs')
    (hf : ∀ access r q, r.Namesake q → (f access r).Namesake (f access q)) :
    List.Forall₂ Resource.Namesake ((stored bs).map fun e => f e.1 e.2.2)
      ((stored bs').map fun e => f e.1 e.2.2) := by
  rw [List.forall₂_map_left_iff, List.forall₂_map_right_iff]
  refine (forall₂_stored h).imp ?_
  rintro ⟨access, x, r⟩ ⟨_, y, q⟩ ⟨rfl, hrq⟩
  exact hf access r q hrq

theorem Aws.nominal (region : String) : (Aws.provider region).Nominal := by
  intro s bs bs' h made hmade
  dsimp only [provider] at hmade ⊢
  split at hmade
  · exact absurd hmade (by simp)
  · rename_i hkind
    obtain rfl := Except.ok.inj hmade
    refine ⟨_, if_neg hkind, .refl _, .cons (.refl _) ?_⟩
    refine forall₂_map_stored (policy region s) h fun access r q hrq => ?_
    constructor <;> simp [policy, Resource.plain, hrq.name]

theorem Dataproc.nominal (project region : String) : (Dataproc.provider project region).Nominal := by
  intro s bs bs' h made hmade
  obtain ⟨compute, hcompute, rfl⟩ := map_eq_ok_iff.1 hmade
  refine ⟨_, map_eq_ok_iff.2 ⟨compute, hcompute, rfl⟩, .refl _, .cons (.refl _) ?_⟩
  refine forall₂_map_stored (member project s) h fun access r q hrq => ?_
  unfold member
  rw [hrq.kind, hrq.name]
  dsimp only
  split <;> exact ⟨rfl, rfl⟩

theorem Kubernetes.nominal (space image : String) : (Kubernetes.provider space image).Nominal := by
  intro s bs bs' _ made hmade
  obtain rfl := Except.ok.inj hmade
  refine ⟨_, rfl, ⟨rfl, rfl⟩, .cons (.refl _) (.cons ⟨?_, ?_⟩ (.cons ⟨rfl, rfl⟩ .nil))⟩
  · rw [role, role, Resource.kind_dependAll, Resource.kind_dependAll]
    rfl
  · rw [role, role, Resource.name_dependAll, Resource.name_dependAll]
    rfl

theorem Machine.nominal (root : String) : (Machine.provider root).Nominal := by
  intro s bs bs' h made hmade
  obtain rfl := Except.ok.inj hmade
  refine ⟨_, rfl, .refl _, ?_⟩
  refine forall₂_map_stored (permission s) h fun access r q hrq => ?_
  constructor <;> simp [permission, Resource.plain, hrq.name]

/-- **The four providers name what they make without looking at properties.** -/
theorem Provider.Standard.nominal {p : Provider} (h : p.Standard) : p.Nominal := by
  cases h with
  | aws region => exact Aws.nominal region
  | dataproc project region => exact Dataproc.nominal project region
  | kubernetes space image => exact Kubernetes.nominal space image
  | machine root => exact Machine.nominal root

namespace Provider

/-- Linking a resource does not change its name. -/
theorem namesake_linked (p : Provider) (g : Graph) (s : Step) (made : Runner) :
    (p.linked g s made).Namesake made.compute := ⟨kind_linked, name_linked⟩

/-- The resource has the name and the origin of one that the provider makes of the graph. -/
def Echoes (p : Provider) (g : Graph) (r : Resource) : Prop :=
  ∃ part q, p.Gives g part q ∧ r.Namesake q ∧ r.origin = q.origin

/-- No two resources that the provider makes of the graph have one name and different origins. -/
def Unambiguous (p : Provider) (g : Graph) : Prop :=
  ∀ part part' r q, p.Gives g part r → p.Gives g part' q → q.id = r.id → q.origin = r.origin

/-- There is no point in the kinds of what the provider makes of the graph. -/
def Pointless (p : Provider) (g : Graph) : Prop :=
  ∀ part r, p.Gives g part r → '.' ∉ r.kind.toList

variable {p : Provider} {g : Graph} {r q : Resource} {part : Part}

theorem Gives.echoes (h : p.Gives g part r) : p.Echoes g r := ⟨part, r, h, .refl r, rfl⟩

theorem Unambiguous.origin_eq (h : p.Unambiguous g) (hr : p.Echoes g r) (hq : p.Echoes g q)
    (hid : q.id = r.id) : q.origin = r.origin := by
  obtain ⟨part, r', hr', hnames, horigin⟩ := hr
  obtain ⟨part', q', hq', hnames', horigin'⟩ := hq
  rw [horigin, horigin']
  refine h part part' r' q' hr' hq' ?_
  rw [← hnames.id_eq, ← hnames'.id_eq, hid]

/-- All that the provider makes of the graph, even for steps that it cannot express whole. -/
def given (p : Provider) (g : Graph) : List Resource :=
  g.assets.filterMap p.stored? ++ g.steps.flatMap fun s => (p.runner? g s).toList.flatMap fun made =>
    p.linked g s made :: (made.access.map (·.madeFor s.origin) ++
      ((p.triggers? s made.compute.id).toList.flatten ++ (p.alerts? s made.compute.id).toList.flatten))

theorem Gives.mem_given (h : p.Gives g part r) : r ∈ p.given g := by
  -- what is put in for a step is found at that step, behind what runs it
  have hstep : ∀ {s : Step} {made : Runner}, s ∈ g.steps → p.runner? g s = some made →
      r ∈ p.linked g s made :: (made.access.map (·.madeFor s.origin) ++
        ((p.triggers? s made.compute.id).toList.flatten ++
          (p.alerts? s made.compute.id).toList.flatten)) → r ∈ p.given g :=
    fun hs hmade hr => List.mem_append_right _ (List.mem_flatMap.2
      ⟨_, hs, List.mem_flatMap.2 ⟨_, Option.mem_toList.2 hmade, hr⟩⟩)
  cases h with
  | storage hx hr => exact List.mem_append_left _ (List.mem_filterMap.2 ⟨_, hx, hr⟩)
  | compute hs hmade => exact hstep hs hmade List.mem_cons_self
  | access hs hmade hr =>
    exact hstep hs hmade (List.mem_cons_of_mem _ (List.mem_append_left _ (List.mem_map_of_mem hr)))
  | @trigger s made r hs hmade hr =>
    obtain ⟨schedule, t, hschedule, ht, rfl⟩ := hr
    refine hstep hs hmade (List.mem_cons_of_mem _ (List.mem_append_right _ (List.mem_append_left _ ?_)))
    simp [triggers?, hschedule, ht, Except.toOption]
  | @alert s made r hs hmade hr =>
    obtain ⟨monitoring, ts, hmonitoring, hts, t, ht, rfl⟩ := hr
    refine hstep hs hmade (List.mem_cons_of_mem _ (List.mem_append_right _ (List.mem_append_right _ ?_)))
    simpa [alerts?, hmonitoring, hts, Except.toOption] using ⟨t, ht, rfl⟩

/-- That no two resources have one name and different origins can be checked.  Origins are compared before
names, which can have digests in them. -/
theorem unambiguous_of_given (h : ∀ r ∈ p.given g, ∀ q ∈ p.given g, q.origin = r.origin ∨ q.id ≠ r.id) :
    p.Unambiguous g :=
  fun _ _ r q hr hq hid => (h r hr.mem_given q hq.mem_given).resolve_right (not_not.2 hid)

/-- What has a name of what the provider makes has its kind. -/
theorem Pointless.namesake (h : p.Pointless g) (hr : p.Gives g part r) (hq : p.Echoes g q)
    (hid : q.id = r.id) : q.Namesake r := by
  obtain ⟨part', q', hq', hnames, -⟩ := hq
  exact hnames.trans (Resource.namesake_of_id_eq (h part' q' hq') (h part r hr)
    (hnames.id_eq.symm.trans hid))

theorem Orderly.pointless (hp : p.Orderly) (g : Graph) : p.Pointless g :=
  fun _ _ h => (h.plays hp).not_mem

end Provider

end Provenance
