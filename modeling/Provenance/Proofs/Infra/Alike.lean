import Provenance.Proofs.Infra.Accept

/-!
# Graphs that look alike to a provider

A provider looks at the task and the target of a step, at the addresses that the step touches and at the
storage declared there.  It does not look at numbers of steps, nor at the order of execution
(`Provider.Blind`; the four providers are).  Graphs that agree in what it looks at are `Graph.Alike`: one
of them is compiled exactly if the other one is, and into the same plan if no two steps of one origin have
something of one name.

* `Provider.pieces?_eq`: the same is put in for alike steps.
* `Plan.exists_ofGraph_iff_of_alike`, `Plan.eq_of_alike`: **alike graphs have one plan.**
-/

namespace Provenance

/-! ## Steps and graphs -/

/-- Steps of one task, target and schedule, watched in one way, that touch the same addresses. -/
structure Step.Alike (s t : Step) : Prop where
  name : s.task.name = t.task.name
  target : s.task.target = t.task.target
  schedule : s.task.schedule = t.task.schedule
  monitoring : s.task.monitoring = t.task.monitoring
  inputs : s.inputs.map (fun i => (i.1, i.2.address)) = t.inputs.map fun i => (i.1, i.2.address)
  output : s.output.address = t.output.address

/-- Graphs with the same storage at the same addresses, and with steps that correspond to each other. -/
structure Graph.Alike (g h : Graph) : Prop where
  assets : ∀ a, (g.asset? a).map (·.storage) = (h.asset? a).map (·.storage)
  steps : ∃ f, Set.BijOn f {s | s ∈ g.steps} {s | s ∈ h.steps} ∧ ∀ s ∈ g.steps, s.Alike (f s)

namespace Step.Alike

variable {s t : Step} (h : s.Alike t)

include h

theorem symm : t.Alike s :=
  ⟨h.name.symm, h.target.symm, h.schedule.symm, h.monitoring.symm, h.inputs.symm, h.output.symm⟩

theorem origin : s.origin = t.origin := by rw [Step.origin, h.output, Step.origin]

theorem label : s.label = t.label := by rw [Step.label, h.name, h.output, Step.label]

theorem naming (room : ℕ) (sep : Char) : Naming.step s room sep = Naming.step t room sep := by
  rw [Naming.step, h.name, h.output, Naming.step]

theorem touched : Compilation.touched s = Compilation.touched t := by
  have hmap : ∀ u : Step, Compilation.touched u =
      (u.inputs.map fun i => (i.1, i.2.address)).map (fun i => (i.2, .read)) ++
        [(u.output.address, .write)] := fun u => by
    rw [List.map_map]
    rfl
  rw [hmap, hmap, h.inputs, h.output]

theorem readsFrom_iff {a : Address} : s.ReadsFrom a ↔ t.ReadsFrom a := by
  have hmem : ∀ u : Step, u.ReadsFrom a ↔ a ∈ (u.inputs.map fun i => (i.1, i.2.address)).map (·.2) :=
    fun u => by simp [Step.ReadsFrom]
  rw [hmem, hmem, h.inputs]

end Step.Alike

namespace Graph.Alike

variable {g h : Graph} (halike : g.Alike h)

include halike

theorem symm : h.Alike g := by
  obtain ⟨f, hf, hsteps⟩ := halike.steps
  have : Nonempty Step :=
    ⟨⟨0, .plain "" [] fun _ => ⟨.ok .empty, false, []⟩, [], ⟨default, none, none, none, 0⟩, false⟩⟩
  have hinv := hf.invOn_invFunOn
  refine ⟨fun a => (halike.assets a).symm, Function.invFunOn f {s | s ∈ g.steps},
    hf.symm hinv.symm, fun t ht => ?_⟩
  obtain ⟨s, hs, rfl⟩ := hf.surjOn ht
  rw [hinv.1 hs]
  exact (hsteps s hs).symm

theorem exists_step {s : Step} (hs : s ∈ g.steps) : ∃ t ∈ h.steps, s.Alike t := by
  obtain ⟨f, hf, hsteps⟩ := halike.steps
  exact ⟨f s, hf.mapsTo hs, hsteps s hs⟩

theorem hashed_subset (hassets : (g.assets.map (·.address)).Nodup) : g.hashed ⊆ h.hashed := by
  rintro text (⟨x, hx, hstorage, rfl⟩ | ⟨s, hs, rfl⟩)
  · have hfound := halike.assets x.address
    rw [(Provider.asset?_eq_some_iff hassets).2 ⟨hx, rfl⟩] at hfound
    obtain ⟨y, hy, hsame⟩ := Option.map_eq_some_iff.1 hfound.symm
    refine .inl ⟨y, List.mem_of_find?_eq_some hy, ?_, ?_⟩
    · rwa [hsame]
    · rw [Provider.address_of_asset? hy]
  · obtain ⟨t, ht, hst⟩ := halike.exists_step hs
    exact .inr ⟨t, ht, by rw [hst.output]⟩

end Graph.Alike

/-! ## Providers -/

/-- What a provider looks at in a binding. -/
def Binding.face (b : Binding) : Address × Option Resource × Access :=
  (b.asset.address, b.resource, b.access)

/-- What is done with the storage among bindings depends on their faces, if it looks at addresses only. -/
theorem map_stored_eq {β : Type} {bs bs' : List Binding} (h : bs.map Binding.face = bs'.map Binding.face)
    (f : Access → Address → Resource → β) :
    (stored bs).map (fun e => f e.1 e.2.1.address e.2.2) =
      (stored bs').map fun e => f e.1 e.2.1.address e.2.2 := by
  have hmap : ∀ cs : List Binding, (stored cs).map (fun e => f e.1 e.2.1.address e.2.2) =
      (cs.map Binding.face).filterMap fun b => b.2.1.map fun r => f b.2.2 b.1 r := by
    intro cs
    unfold stored
    rw [List.map_filterMap, List.filterMap_map]
    refine List.filterMap_congr fun b _ => ?_
    rw [Option.map_map]
    rfl
  rw [hmap, hmap, h]

namespace Provider

/-- The provider looks at nothing that alike steps may differ in. -/
structure Blind (p : Provider) : Prop where
  storage : ∀ x y spec, x.address = y.address → p.storage x spec = p.storage y spec
  compute : ∀ s t bs bs', s.Alike t → bs.map Binding.face = bs'.map Binding.face →
    p.compute s bs = p.compute t bs'
  schedule : ∀ s t schedule runner, s.Alike t → p.schedule s schedule runner = p.schedule t schedule runner
  monitoring : ∀ s t monitoring runner, s.Alike t →
    p.monitoring s monitoring runner = p.monitoring t monitoring runner

end Provider

theorem Aws.blind (region : String) : (Aws.provider region).Blind where
  storage x y spec h := by simp only [provider, store, h]
  compute s t bs bs' h hbs := by
    have hname : functionName s = functionName t := h.naming 59 '-'
    have hrole : role s = role t := by rw [role, hname, role]
    have hfunction : function region s = function region t := by
      rw [function, hname, hrole, h.name, h.target, function]
    have hpolicy : policy region s = policy region t := by
      funext access r
      rw [policy, hname, hrole, policy]
    have hpolicies := map_stored_eq hbs fun access _ r => policy region t access r
    simp only [provider, Step.kind, h.target, h.origin, hfunction, hrole, hpolicy]
    rw [hpolicies]
    rfl
  schedule s t schedule runner h := by simp only [provider, rule, h.origin, functionName, h.naming]
  monitoring s t monitoring runner h := by simp only [provider, alarms, alarm, functionName, h.naming]

theorem Dataproc.blind (project region : String) : (Dataproc.provider project region).Blind where
  storage x y spec h := by simp only [provider, store, h]
  compute s t bs bs' h hbs := by
    have haccount : account project s = account project t := by
      simp only [account, accountId, h.output, h.label]
    have hemail : email project s = email project t := by simp only [email, accountId, h.output]
    have hname : jobName s = jobName t := h.naming 50 '-'
    have hjob : job s = job t := by rw [job, h.name, job]
    have hrunner : runner project region s = runner project region t := by
      rw [runner, h.target, hname, hjob, hemail, h.origin, runner]
    have hmember : member project s = member project t := by
      funext access r
      rw [member, hname, hemail, haccount, member]
    have hmembers := map_stored_eq hbs fun access _ r => member project t access r
    simp only [provider, hrunner, haccount, hmember]
    rw [hmembers]
  schedule s t schedule runner h := by
    simp only [provider, scheduler, jobName, email, accountId, h.naming, h.output]
  monitoring s t monitoring runner h := by
    have hname : jobName s = jobName t := h.naming 50 '-'
    have hconditions : conditions s monitoring = conditions t monitoring := by
      rw [conditions, hname, conditions]
    have halerts : alerts project s monitoring = alerts project t monitoring := by
      rw [alerts, hconditions, hname, h.label, alerts]
    exact congrArg Except.ok halerts

theorem Kubernetes.blind (space image : String) : (Kubernetes.provider space image).Blind where
  storage x y spec h := by simp only [provider, claim, h]
  compute s t bs bs' h hbs := by
    have hname : jobName s = jobName t := h.naming room '-'
    have hjob : ∀ volumes, job space image s volumes = job space image t volumes := fun volumes => by
      rw [job, hname, h.name, h.target, job]
    have haccount : account space s = account space t := by rw [account, hname, account]
    have hrole : ∀ claims, role space s claims = role space t claims := fun claims => by
      rw [role, hname, role]
    have hbinding : ∀ claims, roleBinding space s claims = roleBinding space t claims := fun claims => by
      rw [roleBinding, hname, hrole, haccount, roleBinding]
    -- a mount looks at the address of the asset only
    have hmounts : (stored bs).map (fun e => mount e.1 e.2.1 e.2.2) =
        (stored bs').map fun e => mount e.1 e.2.1 e.2.2 :=
      map_stored_eq hbs fun access a r => mount access ⟨a, none, none, none, 0⟩ r
    have hclaims : (stored bs).map (·.2.2) = (stored bs').map (·.2.2) :=
      map_stored_eq hbs fun _ _ r => r
    simp only [provider, hjob, haccount, hrole, hbinding, hclaims]
    rw [hmounts]
  schedule s t schedule runner h := by simp only [provider, cronJob, jobName, h.naming]
  monitoring s t monitoring runner h := by
    have hname : jobName s = jobName t := h.naming room '-'
    have hselector : selector space s = selector space t := by rw [selector, hname, selector]
    have hrules : rules space s monitoring = rules space t monitoring := by rw [rules, hselector, rules]
    have halerts : alerts space s monitoring = alerts space t monitoring := by
      rw [alerts, hrules, hname, alerts]
    exact congrArg Except.ok halerts

theorem Machine.blind (root : String) : (Machine.provider root).Blind where
  storage x y spec h := by simp only [provider, directory, h]
  compute s t bs bs' h hbs := by
    have hname : stepName s = stepName t := h.naming room '-'
    have hprocess : process s = process t := by rw [process, hname, h.name, h.target, process]
    have hpermission : permission s = permission t := by
      funext access r
      unfold permission
      rw [hname]
    have hpermissions := map_stored_eq hbs fun access _ r => permission t access r
    simp only [provider, hprocess, hpermission]
    rw [hpermissions]
  schedule s t schedule runner h := by simp only [provider, h.origin]
  monitoring s t monitoring runner h := by simp only [provider, alert, stepName, h.naming]

/-- **The four providers look at nothing that alike steps may differ in.** -/
theorem Provider.Standard.blind {p : Provider} (h : p.Standard) : p.Blind := by
  cases h with
  | aws region => exact Aws.blind region
  | dataproc project region => exact Dataproc.blind project region
  | kubernetes space image => exact Kubernetes.blind space image
  | machine root => exact Machine.blind root

/-! ## What is made of alike graphs -/

section

variable {p : Provider} {g h : Graph} {s t : Step} {a : Address} {r : Resource}

/-- Alike steps stand upstream of alike steps. -/
theorem Graph.mem_upstream_iff_of_alike {u v : Step} (hg : g.Sound) (hh : h.Sound) (hs : s ∈ g.steps)
    (ht : t ∈ h.steps) (hst : s.Alike t) (hu : u ∈ g.steps) (hv : v ∈ h.steps) (huv : u.Alike v) :
    u.id ∈ g.upstream s.id ↔ v.id ∈ h.upstream t.id := by
  rw [hg.id_mem_upstream_iff hs hu, hh.id_mem_upstream_iff ht hv, huv.output, hst.readsFrom_iff]

variable (hblind : p.Blind) (halike : g.Alike h)

include hblind halike

namespace Provider

/-- **The storage at an address is the same.** -/
theorem storedAt?_eq (a : Address) : p.storedAt? g a = p.storedAt? h a := by
  have hassets := halike.assets a
  unfold storedAt?
  cases hx : g.asset? a with
  | none =>
    rw [hx, Option.map_none] at hassets
    rw [Option.map_eq_none_iff.1 hassets.symm]
  | some x =>
    rw [hx, Option.map_some] at hassets
    obtain ⟨y, hy, hsame⟩ := Option.map_eq_some_iff.1 hassets.symm
    have haddress : y.address = x.address := (address_of_asset? hy).trans (address_of_asset? hx).symm
    rw [hy, Option.bind_some, Option.bind_some, stored?, stored?, hsame, haddress]
    exact congrArg _ (funext fun spec => by rw [hblind.storage x y spec haddress.symm])

theorem expresses_congr : p.Expresses g a ↔ p.Expresses h a := by
  have hstorage : ∀ g : Graph, (g.asset? a).bind (·.storage) = ((g.asset? a).map (·.storage)).join :=
    fun g => by cases g.asset? a <;> rfl
  rw [expresses_iff, expresses_iff, hstorage, hstorage, halike.assets a, storedAt?_eq hblind halike]

/-- Alike steps are bound to the same. -/
theorem face_bindings (hst : s.Alike t) :
    (p.bindings g s).map Binding.face = (p.bindings h t).map Binding.face := by
  have hmap : ∀ (g : Graph) (s : Step), (p.bindings g s).map Binding.face =
      (Compilation.touched s).filterMap fun t =>
        ((g.asset? t.1).map (·.storage)).map fun _ => (t.1, p.storedAt? g t.1, t.2) := by
    intro g s
    unfold bindings
    rw [List.map_filterMap]
    refine List.filterMap_congr fun t _ => ?_
    unfold storedAt?
    cases hx : g.asset? t.1 with
    | none => rfl
    | some x =>
      have hface : Binding.face ⟨x, p.stored? x, t.2⟩ = (t.1, p.stored? x, t.2) := by
        rw [Binding.face, address_of_asset? hx]
      rw [Option.map_some, Option.map_some, hface]
      rfl
  rw [hmap, hmap, hst.touched]
  refine List.filterMap_congr fun t _ => ?_
  rw [halike.assets, storedAt?_eq hblind halike]

theorem runner?_eq (hst : s.Alike t) : p.runner? g s = p.runner? h t := by
  unfold runner?
  rw [hblind.compute s t _ _ hst (face_bindings hblind halike hst)]

omit halike in
theorem triggers?_eq (hst : s.Alike t) (runner : ResourceId) :
    p.triggers? s runner = p.triggers? t runner := by
  unfold triggers?
  rw [hst.schedule, hst.origin]
  cases t.task.schedule with
  | none => rfl
  | some schedule =>
    dsimp only
    rw [hblind.schedule s t schedule runner hst]

omit halike in
theorem alerts?_eq (hst : s.Alike t) (runner : ResourceId) :
    p.alerts? s runner = p.alerts? t runner := by
  unfold alerts?
  rw [hst.monitoring, hst.origin]
  cases t.task.monitoring with
  | none => rfl
  | some monitoring =>
    dsimp only
    rw [hblind.monitoring s t monitoring runner hst]

variable (hg : g.Sound) (hh : h.Sound)

include hg hh

/-- What runs alike steps depends on the same. -/
theorem linked_eq (hs : s ∈ g.steps) (ht : t ∈ h.steps) (hst : s.Alike t) (made : Runner) :
    p.linked g s made = p.linked h t made := by
  unfold linked
  rw [hst.origin, hst.touched]
  simp only [storedAt?_eq hblind halike]
  refine Resource.dependAll_congr _ fun id => ?_
  rw [mem_parents_iff hg, mem_parents_iff hh]
  constructor
  · rintro ⟨u, hu, hup, made, hmade, hid⟩
    obtain ⟨v, hv, huv⟩ := halike.exists_step hu
    exact ⟨v, hv, (Graph.mem_upstream_iff_of_alike hg hh hs ht hst hu hv huv).1 hup, made,
      (runner?_eq hblind halike huv).symm.trans hmade, hid⟩
  · rintro ⟨v, hv, hup, made, hmade, hid⟩
    obtain ⟨u, hu, hvu⟩ := halike.symm.exists_step hv
    exact ⟨u, hu, (Graph.mem_upstream_iff_of_alike hg hh hs ht hst hu hv hvu.symm).2 hup, made,
      (runner?_eq hblind halike hvu.symm).trans hmade, hid⟩

/-- **The same is put in for alike steps.** -/
theorem pieces?_eq (hs : s ∈ g.steps) (ht : t ∈ h.steps) (hst : s.Alike t) :
    p.pieces? g s = p.pieces? h t := by
  unfold pieces?
  simp only [runner?_eq hblind halike hst, triggers?_eq hblind hst, alerts?_eq hblind hst,
    linked_eq hblind halike hg hh hs ht hst, hst.origin]

theorem Makes.of_alike (hr : p.Makes g r) : p.Makes h r := by
  rcases hr with ⟨a, hr⟩ | ⟨s, hs, rs, hrs, hr⟩
  · exact .inl ⟨a, (storedAt?_eq hblind halike a).symm.trans hr⟩
  · obtain ⟨t, ht, hst⟩ := halike.exists_step hs
    exact .inr ⟨t, ht, rs, (pieces?_eq hblind halike hg hh hs ht hst).symm.trans hrs, hr⟩

theorem Accepts.of_alike (haccepts : p.Accepts g) : p.Accepts h where
  storage a := (expresses_congr hblind halike).1 (haccepts.storage a)
  steps t ht := by
    obtain ⟨s, hs, hts⟩ := halike.symm.exists_step ht
    rw [pieces?_eq hblind halike.symm hh hg ht hs hts]
    exact haccepts.steps s hs
  names r q hr hq := haccepts.names r q (hr.of_alike hblind halike.symm hh hg)
    (hq.of_alike hblind halike.symm hh hg)

theorem Apart.of_alike (hapart : p.Apart g) : p.Apart h := by
  intro s hs t ht rs qs hrs hqs r hr q hq hid horigin
  obtain ⟨s', hs', hss⟩ := halike.symm.exists_step hs
  obtain ⟨t', ht', htt⟩ := halike.symm.exists_step ht
  rw [pieces?_eq hblind halike.symm hh hg hs hs' hss] at hrs
  rw [pieces?_eq hblind halike.symm hh hg ht ht' htt] at hqs
  rw [hss.origin, htt.origin] at horigin
  have heq := hapart s' hs' t' ht' rs qs hrs hqs r hr q hq hid horigin
  exact hh.eq_of_output_eq ht hs (by rw [htt.output, hss.output, heq])

/-- What is last is the same, if the steps are apart. -/
theorem lastPiece?_of_alike {id : ResourceId} (haccepts : p.Accepts g) (hapart : p.Apart g)
    (hr : p.lastPiece? g g.steps id = some r) : p.lastPiece? h h.steps id = some r := by
  obtain ⟨s, hs, rs, hrs, hfound⟩ := (lastPiece?_eq_some_iff haccepts hapart).1 hr
  obtain ⟨t, ht, hst⟩ := halike.exists_step hs
  exact (lastPiece?_eq_some_iff (haccepts.of_alike hblind halike hg hh)
    (hapart.of_alike hblind halike hg hh)).2
      ⟨t, ht, rs, (pieces?_eq hblind halike hg hh hs ht hst).symm.trans hrs, hfound⟩

end Provider

variable (hg : g.Sound) (hh : h.Sound) (hassets : (g.assets.map (·.address)).Nodup)
  (hassets' : (h.assets.map (·.address)).Nodup) (hp : p.Orderly) (hself : p.SelfContained)
  (hdigest : Set.InjOn Naming.digest g.hashed)

include hg hh hassets hassets' hp hself hdigest

/-- **Of alike graphs, one is compiled exactly if the other one is.** -/
theorem Plan.exists_ofGraph_iff_of_alike : (∃ plan, Plan.ofGraph p Hooks.none g = .ok plan) ↔
    ∃ plan, Plan.ofGraph p Hooks.none h = .ok plan := by
  have hdigest' := hdigest.mono (halike.symm.hashed_subset hassets')
  rw [Plan.exists_ofGraph_iff hp hg hassets hdigest hself,
    Plan.exists_ofGraph_iff hp hh hassets' hdigest' hself]
  exact ⟨.of_alike hblind halike hg hh, .of_alike hblind halike.symm hh hg⟩

/-- **Alike graphs have one plan.** -/
theorem Plan.eq_of_alike (hapart : p.Apart g) {plan plan' : Plan}
    (hplan : Plan.ofGraph p Hooks.none g = .ok plan) (hplan' : Plan.ofGraph p Hooks.none h = .ok plan') :
    plan = plan' := by
  have hdigest' := hdigest.mono (halike.symm.hashed_subset hassets')
  have haccepts := (Plan.exists_ofGraph_iff hp hg hassets hdigest hself).1 ⟨plan, hplan⟩
  have haccepts' := haccepts.of_alike hblind halike hg hh
  have hapart' := hapart.of_alike hblind halike hg hh
  have hprovider : plan.provider = plan'.provider :=
    (Plan.provider_of_ofGraph hp hg hassets hdigest hplan).trans
      (Plan.provider_of_ofGraph hp hh hassets' hdigest' hplan').symm
  have hget : ∀ id, plan.get? id = plan'.get? id := fun id => Option.ext fun r => by
    rw [Plan.get?_eq_some_iff hp hg hassets hdigest hplan,
      Plan.get?_eq_some_iff hp hh hassets' hdigest' hplan']
    simp only [Provider.storedAt?_eq hblind halike]
    refine or_congr_right ⟨?_, ?_⟩
    · exact Provider.lastPiece?_of_alike hblind halike hg hh haccepts hapart
    · exact Provider.lastPiece?_of_alike hblind halike.symm hh hg haccepts' hapart'
  cases plan
  cases plan'
  exact congrArg₂ Plan.mk hprovider (Index.eq_of_find? hget)

end

end Provenance
