import Provenance.Proofs.Infra.Closed
import Provenance.Proofs.Infra.Namesake

/-!
# What graphs ask for, and what providers lack

Each asset that is to be stored and each step asks for something (`Graph.requests`), and each provider lacks
something (`Provider.Lacking`): which graphs it takes can be read off the graph (`Aws.fits_iff` and so on).
A provider judges each part of a graph for itself: it expresses the part if it lacks nothing of what the part
asks for, and otherwise refuses what it lacks (`Provider.Judges`).

A compilation puts these judgements together.  It looks at every asset and every step, some assets only
after all steps; and while nothing of one name has different origins, nothing else stops it: that is the
invariant `Compilation.Tidy`, which needs no digests.

* `Compilation.meets_ofGraph`: **a graph is compiled only if nothing that it asks for is lacking and no
  duration overflows; it is refused only for something that it asks for, and panics only for such a
  duration.**
-/

namespace Provenance

/-! ## Requests -/

/-- What storage of some kind asks for; objects are stored by every provider. -/
def Medium.requests : Medium → List Capability
  | .volume => [.volumeStorage]
  | .table => [.tableStorage]
  | .objectStore => []

/-- What targets of some kind ask for; functions run with every provider. -/
def TargetKind.requests : TargetKind → List Capability
  | .cluster => [.distributedCompute]
  | .host => [.localCompute]
  | .serverless => []

/-- What a schedule asks for: that there are schedules, and that this one can be written. -/
def Schedule.requests (schedule : Schedule) : List Capability := [.schedule, .cron schedule.cron]

/-- What an asset asks for, if it is to be stored. -/
def Asset.requests (x : Asset) : List Capability := x.storage.elim [] fun spec => spec.medium.requests

/-- What a step asks for: its target, its schedule and its monitoring, if it has them. -/
def Step.requests (s : Step) : List Capability :=
  s.kind.requests ++ (s.task.schedule.elim [] Schedule.requests ++
    s.task.monitoring.elim [] fun _ => [.monitoring])

/-- What a graph asks for, with the asset or the step that asks for it. -/
def Graph.requests (g : Graph) : List (String × Capability) :=
  g.assets.flatMap (fun x => x.requests.map (x.address.text, ·)) ++
    g.steps.flatMap fun s => s.requests.map (s.origin, ·)

theorem Graph.mem_requests_iff {g : Graph} {origin : String} {cap : Capability} :
    (origin, cap) ∈ g.requests ↔ (∃ x ∈ g.assets, cap ∈ x.requests ∧ x.address.text = origin) ∨
      ∃ s ∈ g.steps, cap ∈ s.requests ∧ s.origin = origin := by
  unfold requests
  simp only [List.mem_append, List.mem_flatMap, List.mem_map, Prod.mk.injEq, exists_eq_right_right]

/-! ## Lacks -/

/-- Nothing runs on clusters in AWS, and not every schedule fits EventBridge. -/
def Aws.lacks : Capability → Bool
  | .distributedCompute => true
  | .cron line => (Cron.eventBridge? line).isNone
  | _ => false

/-- Nothing runs on the host in Dataproc, and there are no volumes. -/
def Dataproc.lacks : Capability → Bool
  | .localCompute | .volumeStorage => true
  | _ => false

/-- There are no tables in Kubernetes. -/
def Kubernetes.lacks : Capability → Bool
  | .tableStorage => true
  | _ => false

/-- Nothing starts a process on schedule on one machine. -/
def Machine.lacks : Capability → Bool
  | .schedule => true
  | _ => false

/-- What a provider lacks that leaves schedules and monitoring to the defaults. -/
def Provider.plainLacks : Capability → Bool
  | .schedule | .monitoring => true
  | _ => false

/-- The graph asks for nothing that is lacking. -/
def Graph.Fits (g : Graph) (lacks : Capability → Bool) : Prop := ∀ e ∈ g.requests, lacks e.2 = false

instance {g : Graph} {lacks : Capability → Bool} : Decidable (g.Fits lacks) :=
  inferInstanceAs (Decidable (∀ e ∈ g.requests, lacks e.2 = false))

/-- No step has monitoring whose translation overflows. -/
def Graph.InRange (g : Graph) (overflows : Monitoring → Bool) : Prop :=
  ∀ s ∈ g.steps, s.task.monitoring.any overflows = false

instance {g : Graph} {overflows : Monitoring → Bool} : Decidable (g.InRange overflows) :=
  inferInstanceAs (Decidable (∀ s ∈ g.steps, s.task.monitoring.any overflows = false))

/-- What a provider cannot do: what it lacks, and the monitoring that it fails to translate. -/
structure Provider.Gaps where
  lacks : Capability → Bool
  overflows : Monitoring → Bool := fun _ => false

/-- AWS lacks clusters and some schedules, and its durations can overflow. -/
def Aws.gaps : Provider.Gaps := ⟨Aws.lacks, Aws.overflows⟩

section

variable {g : Graph}

theorem Asset.forall_requests {P : Capability → Prop} {x : Asset} :
    (∀ cap ∈ x.requests, P cap) ↔ ∀ spec, x.storage = some spec →
      (spec.medium = .volume → P .volumeStorage) ∧ (spec.medium = .table → P .tableStorage) := by
  unfold requests
  cases x.storage with
  | none => simp
  | some spec => cases hmedium : spec.medium <;> simp [Medium.requests, hmedium]

theorem Step.forall_requests {P : Capability → Prop} {s : Step} :
    (∀ cap ∈ s.requests, P cap) ↔ (s.kind = .cluster → P .distributedCompute) ∧
      (s.kind = .host → P .localCompute) ∧
      (∀ schedule, s.task.schedule = some schedule → P .schedule ∧ P (.cron schedule.cron)) ∧
      (s.task.monitoring.isSome → P .monitoring) := by
  unfold requests
  cases s.kind <;> cases s.task.schedule <;> cases s.task.monitoring <;>
    simp [TargetKind.requests, Schedule.requests, and_assoc]

theorem Graph.fits_iff {lacks : Capability → Bool} :
    g.Fits lacks ↔ (∀ x ∈ g.assets, ∀ cap ∈ x.requests, lacks cap = false) ∧
      ∀ s ∈ g.steps, ∀ cap ∈ s.requests, lacks cap = false := by
  unfold Fits
  rw [Prod.forall]
  simp only [mem_requests_iff]
  constructor
  · intro h
    exact ⟨fun x hx cap hcap => h _ cap (.inl ⟨x, hx, hcap, rfl⟩),
      fun s hs cap hcap => h _ cap (.inr ⟨s, hs, hcap, rfl⟩)⟩
  · rintro ⟨hassets, hsteps⟩ _ cap (⟨x, hx, hcap, -⟩ | ⟨s, hs, hcap, -⟩)
    · exact hassets x hx cap hcap
    · exact hsteps s hs cap hcap

/-- AWS takes graphs without steps on clusters, whose schedules fit EventBridge. -/
theorem Aws.fits_iff : g.Fits lacks ↔ ∀ s ∈ g.steps, s.kind ≠ .cluster ∧
    ∀ schedule, s.task.schedule = some schedule → (Cron.eventBridge? schedule.cron).isSome := by
  simp [Graph.fits_iff, Asset.forall_requests, Step.forall_requests, lacks, Option.isSome_iff_ne_none]

/-- The durations that AWS watches are in range if their milliseconds fit into 64 bits. -/
theorem Aws.inRange_iff : g.InRange overflows ↔ ∀ s ∈ g.steps, ∀ m, s.task.monitoring = some m →
    ∀ secs, m.maxDurationSecs = some secs → 1000 * secs.toNat < 2 ^ 64 := by
  simp only [Graph.InRange, Option.any_eq_false, overflows_eq_false_iff]

/-- Dataproc takes graphs without volumes and without steps on the host. -/
theorem Dataproc.fits_iff : g.Fits lacks ↔
    (∀ x ∈ g.assets, ∀ spec, x.storage = some spec → spec.medium ≠ .volume) ∧
      ∀ s ∈ g.steps, s.kind ≠ .host := by
  simp [Graph.fits_iff, Asset.forall_requests, Step.forall_requests, lacks]

/-- Kubernetes takes graphs without tables. -/
theorem Kubernetes.fits_iff : g.Fits lacks ↔
    ∀ x ∈ g.assets, ∀ spec, x.storage = some spec → spec.medium ≠ .table := by
  simp [Graph.fits_iff, Asset.forall_requests, Step.forall_requests, lacks]

/-- One machine takes graphs without schedules. -/
theorem Machine.fits_iff : g.Fits lacks ↔ ∀ s ∈ g.steps, s.task.schedule = none := by
  simp [Graph.fits_iff, Asset.forall_requests, Step.forall_requests, lacks,
    Option.eq_none_iff_forall_ne_some]

/-- The defaults take graphs without schedules and monitoring. -/
theorem Provider.fits_plainLacks_iff : g.Fits plainLacks ↔
    ∀ s ∈ g.steps, s.task.schedule = none ∧ s.task.monitoring = none := by
  simp [Graph.fits_iff, Asset.forall_requests, Step.forall_requests, plainLacks,
    Option.eq_none_iff_forall_ne_some]

end

namespace Provider

/-- A provider that leaves schedules and monitoring to the defaults, and expresses all else.  Its kinds have
no points, and its names do not depend on properties. -/
structure Plain (p : Provider) : Prop where
  storage : ∀ x spec, ∃ r, p.storage x spec = .ok r ∧ '.' ∉ r.kind.toList ∧ r.dependsOn = .empty
  compute : ∀ s bs, ∃ made, p.compute s bs = .ok made ∧ '.' ∉ made.compute.kind.toList ∧
    made.compute.dependsOn = .empty ∧ ∀ q ∈ made.access, '.' ∉ q.kind.toList ∧
      ∀ id ∈ q.dependsOn.toList,
        (∃ e ∈ stored bs, e.2.2.id = id) ∨ ∃ q' ∈ made.access, q'.id = id
  nominal : p.Nominal
  schedule : ∀ s schedule runner,
    p.schedule s schedule runner = .error (.compilation s.origin .schedule p.name)
  monitoring : ∀ s monitoring runner,
    p.monitoring s monitoring runner = .error (.compilation s.origin .monitoring p.name)

/-- What providers lack: the four that come with the library, and any that uses the defaults.  Only the
durations of AWS can overflow. -/
inductive Lacking : Provider → Gaps → Prop
  | aws (region : String) : Lacking (Aws.provider region) Aws.gaps
  | dataproc (project region : String) :
      Lacking (Dataproc.provider project region) { lacks := Dataproc.lacks }
  | kubernetes (space image : String) :
      Lacking (Kubernetes.provider space image) { lacks := Kubernetes.lacks }
  | machine (root : String) : Lacking (Machine.provider root) { lacks := Machine.lacks }
  | plain {p : Provider} : p.Plain → Lacking p { lacks := plainLacks }

/-- The answer to some requests is right: nothing is refused and nothing is lacking, or something that is
lacking is refused, in the name of the provider and of who asks for it. -/
def Judged {α : Type} (lacks : Capability → Bool) (name origin : String) (requests : List Capability) :
    Except Fault α → Prop :=
  Meets (fun fault => ∃ cap ∈ requests, lacks cap = true ∧ fault = .compilation origin cap name)
    fun _ => ∀ cap ∈ requests, lacks cap = false

/-- A provider refuses what it lacks, wherever it is asked for, and nothing else.  Monitoring that it does
not lack may still overflow. -/
structure Judges (p : Provider) (gaps : Gaps) : Prop where
  storage : ∀ x spec, Judged gaps.lacks p.name x.address.text spec.medium.requests (p.storage x spec)
  compute : ∀ s bs, Judged gaps.lacks p.name s.origin s.kind.requests (p.compute s bs)
  schedule : ∀ s schedule runner,
    Judged gaps.lacks p.name s.origin schedule.requests (p.schedule s schedule runner)
  monitoring : ∀ s monitoring runner, gaps.overflows monitoring = false →
    Judged gaps.lacks p.name s.origin [.monitoring] (p.monitoring s monitoring runner)
  overflow : ∀ s monitoring runner, gaps.overflows monitoring = true →
    p.monitoring s monitoring runner = .error .overflow

end Provider

theorem Aws.judges (region : String) : (Aws.provider region).Judges Aws.gaps where
  storage x spec := by
    cases hmedium : spec.medium <;> simp [Provider.Judged, Meets, provider, gaps, lacks, Medium.requests]
  compute s bs := by
    dsimp only [provider]
    cases s.kind <;> simp [Provider.Judged, Meets, gaps, lacks, TargetKind.requests]
  schedule s schedule runner := by
    dsimp only [provider, rule]
    cases hline : Cron.eventBridge? schedule.cron <;>
      simp [Provider.Judged, Meets, gaps, lacks, hline, Schedule.requests]
  monitoring s monitoring runner hfits := by
    have hnot : ¬ overflows monitoring = true := Bool.eq_false_iff.1 hfits
    dsimp only [provider]
    rw [alarms_eq, if_neg hnot]
    simp [Provider.Judged, Meets, gaps, lacks]
  overflow s monitoring runner hover := by
    dsimp only [provider]
    rw [alarms_eq, if_pos (show overflows monitoring = true from hover)]

theorem Dataproc.judges (project region : String) :
    (Dataproc.provider project region).Judges { lacks := Dataproc.lacks } where
  storage x spec := by
    dsimp only [provider, store]
    cases spec.medium <;> simp [Provider.Judged, Meets, lacks, Medium.requests]
  compute s bs := by
    have hkind : s.task.target.kind = s.kind := rfl
    dsimp only [provider, runner]
    rw [hkind]
    cases s.kind <;> simp [Provider.Judged, Meets, lacks, Except.map, TargetKind.requests]
  schedule s schedule runner := by simp [Provider.Judged, Meets, provider, lacks, Schedule.requests]
  monitoring s monitoring runner _ := by simp [Provider.Judged, Meets, provider, lacks]
  overflow s monitoring runner h := absurd h (by simp)

theorem Kubernetes.judges (space image : String) :
    (Kubernetes.provider space image).Judges { lacks := Kubernetes.lacks } where
  storage x spec := by
    dsimp only [provider, claim]
    cases spec.medium <;> simp [Provider.Judged, Meets, lacks, Medium.requests]
  compute s bs := by
    cases s.kind <;> simp [Provider.Judged, Meets, provider, lacks, TargetKind.requests]
  schedule s schedule runner := by simp [Provider.Judged, Meets, provider, lacks, Schedule.requests]
  monitoring s monitoring runner _ := by simp [Provider.Judged, Meets, provider, lacks]
  overflow s monitoring runner h := absurd h (by simp)

theorem Machine.judges (root : String) : (Machine.provider root).Judges { lacks := Machine.lacks } where
  storage x spec := by
    cases spec.medium <;> simp [Provider.Judged, Meets, provider, lacks, Medium.requests]
  compute s bs := by
    cases s.kind <;> simp [Provider.Judged, Meets, provider, lacks, TargetKind.requests]
  schedule s schedule runner := by simp [Provider.Judged, Meets, provider, lacks, Schedule.requests]
  monitoring s monitoring runner _ := by simp [Provider.Judged, Meets, provider, lacks]
  overflow s monitoring runner h := absurd h (by simp)

namespace Provider

variable {p : Provider} {gaps : Gaps} {g : Graph}

theorem Plain.judges (hp : p.Plain) : p.Judges { lacks := plainLacks } where
  storage x spec := by
    obtain ⟨r, hr, -⟩ := hp.storage x spec
    rw [hr]
    cases spec.medium <;> simp [Judged, Meets, plainLacks, Medium.requests]
  compute s bs := by
    obtain ⟨made, hmade, -⟩ := hp.compute s bs
    rw [hmade]
    cases s.kind <;> simp [Judged, Meets, plainLacks, TargetKind.requests]
  schedule s schedule runner := by
    rw [hp.schedule]
    simp [Judged, Meets, plainLacks, Schedule.requests]
  monitoring s monitoring runner _ := by
    rw [hp.monitoring]
    simp [Judged, Meets, plainLacks]
  overflow s monitoring runner h := absurd h (by simp)

theorem Plain.frugal (hp : p.Plain) : p.Frugal where
  frank :=
    { storage := fun x spec => by
        obtain ⟨r, hr, -⟩ := hp.storage x spec
        rw [hr]
        rfl
      compute := fun s bs => by
        obtain ⟨made, hmade, -⟩ := hp.compute s bs
        rw [hmade]
        rfl
      schedule := fun s schedule runner => by
        rw [hp.schedule]
        exact id
      monitoring := fun s monitoring runner => by
        rw [hp.monitoring]
        exact id }
  selfContained :=
    { storage := fun x spec r h => by
        obtain ⟨r', hr', -, hbare⟩ := hp.storage x spec
        obtain rfl := Except.ok.inj (hr'.symm.trans h)
        exact hbare
      access := fun s bs made h q hq => by
        obtain ⟨made', hmade', -, -, haccess⟩ := hp.compute s bs
        obtain rfl := Except.ok.inj (hmade'.symm.trans h)
        exact (haccess q hq).2 }
  compute s bs made h := by
    obtain ⟨made', hmade', -, hbare, -⟩ := hp.compute s bs
    obtain rfl := Except.ok.inj (hmade'.symm.trans h)
    exact hbare
  schedule s schedule runner r h := by
    rw [hp.schedule] at h
    exact absurd h (by simp)
  monitoring s monitoring runner rs h := by
    rw [hp.monitoring] at h
    exact absurd h (by simp)

theorem Plain.pointless (hp : p.Plain) (g : Graph) : p.Pointless g := by
  intro part r h
  refine Gives.kind (K := fun _ kind => '.' ∉ kind.toList) (fun x spec r hr => ?_)
    (fun s bs made hmade => ?_) (fun s schedule runner r hr => ?_)
    (fun s monitoring runner rs hrs => ?_) h
  · obtain ⟨r', hr', hpoint, -⟩ := hp.storage x spec
    rwa [Except.ok.inj (hr.symm.trans hr')]
  · obtain ⟨made', hmade', hpoint, -, haccess⟩ := hp.compute s bs
    rw [Except.ok.inj (hmade.symm.trans hmade')]
    exact ⟨hpoint, fun q hq => (haccess q hq).1⟩
  · exact absurd (hr.symm.trans (hp.schedule s schedule runner)) (by simp)
  · exact absurd (hrs.symm.trans (hp.monitoring s monitoring runner)) (by simp)

theorem plain_basic : basic.Plain where
  storage _ _ := ⟨_, rfl, by simp [Resource.plain], rfl⟩
  compute _ _ := ⟨_, rfl, by simp [Resource.plain], rfl, fun _ hq => absurd hq List.not_mem_nil⟩
  nominal _ _ _ _ _ hmade := ⟨_, hmade, .refl _, List.forall₂_same.2 fun _ _ => .refl _⟩
  schedule _ _ _ := rfl
  monitoring _ _ _ := rfl

/-- **What a provider refuses is what it lacks.** -/
theorem Lacking.judges (h : p.Lacking gaps) : p.Judges gaps := by
  cases h with
  | aws region => exact Aws.judges region
  | dataproc project region => exact Dataproc.judges project region
  | kubernetes space image => exact Kubernetes.judges space image
  | machine root => exact Machine.judges root
  | plain hp => exact hp.judges

theorem Lacking.standard_or_plain (h : p.Lacking gaps) : p.Standard ∨ p.Plain := by
  cases h with
  | aws region => exact .inl (.aws region)
  | dataproc project region => exact .inl (.dataproc project region)
  | kubernetes space image => exact .inl (.kubernetes space image)
  | machine root => exact .inl (.machine root)
  | plain hp => exact .inr hp

theorem Lacking.frugal (h : p.Lacking gaps) : p.Frugal :=
  h.standard_or_plain.elim Standard.frugal Plain.frugal

theorem Lacking.nominal (h : p.Lacking gaps) : p.Nominal :=
  h.standard_or_plain.elim Standard.nominal Plain.nominal

theorem Lacking.pointless (h : p.Lacking gaps) (g : Graph) : p.Pointless g :=
  h.standard_or_plain.elim (fun hp => hp.orderly.pointless g) fun hp => hp.pointless g

/-- The fault refuses, in the name of the provider, something that the graph asks for and the provider
lacks, and names who asks for it; or it is the overflow of some monitoring. -/
def Refuses (p : Provider) (gaps : Gaps) (g : Graph) (fault : Fault) : Prop :=
  (∃ e ∈ g.requests, gaps.lacks e.2 = true ∧ fault = .compilation e.1 e.2 p.name) ∨
    fault = .overflow ∧ ∃ s ∈ g.steps, s.task.monitoring.any gaps.overflows = true

/-- A judgement on some of what an asset or a step of the graph asks for. -/
theorem Judged.meets {α : Type} {x : Except Fault α} {origin : String} {requests : List Capability}
    (h : Judged gaps.lacks p.name origin requests x)
    (hmem : ∀ cap ∈ requests, (origin, cap) ∈ g.requests) :
    Meets (p.Refuses gaps g) (fun a => x = .ok a ∧ ∀ cap ∈ requests, gaps.lacks cap = false) x := by
  refine Meets.weaken (Meets.eq_ok h) ?_
  rintro fault ⟨cap, hcap, hlacks, rfl⟩
  exact .inl ⟨(origin, cap), hmem cap hcap, hlacks, rfl⟩

/-- A judgement on the monitoring of a step. -/
theorem Judges.meets_monitoring (h : p.Judges gaps) {s : Step} (hs : s ∈ g.steps) {m : Monitoring}
    (hm : s.task.monitoring = some m) (runner : ResourceId) :
    Meets (p.Refuses gaps g) (fun rs => p.monitoring s m runner = .ok rs ∧
      (∀ cap ∈ [Capability.monitoring], gaps.lacks cap = false) ∧ gaps.overflows m = false)
      (p.monitoring s m runner) := by
  cases hover : gaps.overflows m with
  | true =>
    rw [h.overflow s m runner hover]
    exact .inr ⟨rfl, s, hs, by rw [hm, Option.any_some, hover]⟩
  | false =>
    have hmem : ∀ cap ∈ [Capability.monitoring], (s.origin, cap) ∈ g.requests := by
      intro cap hcap
      refine Graph.mem_requests_iff.2 (.inr ⟨s, hs, ?_, rfl⟩)
      refine List.mem_append_right _ (List.mem_append_right _ ?_)
      rwa [hm]
    exact ((h.monitoring s m runner hover).meets hmem).mono fun rs hrs => ⟨hrs.1, hrs.2, rfl⟩

end Provider

/-! ## Runs -/

namespace Compilation

variable {p : Provider} {gaps : Provider.Gaps} {E : Fault → Prop} {g : Graph} {c : Compilation}
  {s : Step} {done : List Step} {r : Resource} {rs : List Resource}

/-- While nothing is refused, all that is put in has names and origins of what the provider makes of the
graph, the storage of an address that was looked at is in if there is any, and nothing that was asked for
so far is lacking. -/
structure Tidy (p : Provider) (gaps : Provider.Gaps) (g : Graph) (done : List Step)
    (c : Compilation) : Prop where
  held : ∀ id r, c.plan.get? id = some r → r.id = id ∧ p.Echoes g r
  stores : ∀ a o, c.stores.lookup a = some o → o = (p.storedAt? g a).map Resource.id ∧
    ∀ r, p.storedAt? g a = some r → ∃ q, c.plan.get? r.id = some q
  assets : ∀ a, (c.stores.lookup a).isSome → ∀ x, g.asset? a = some x → ∀ cap ∈ x.requests,
    gaps.lacks cap = false
  steps : ∀ t ∈ done, ∀ cap ∈ t.requests, gaps.lacks cap = false
  limits : ∀ t ∈ done, t.task.monitoring.any gaps.overflows = false

theorem tidy_start : Tidy p gaps g [] (start p) where
  held id r hr := absurd hr (by simp [start, Plan.get?, Plan.empty])
  stores a o ho := absurd ho (by simp [start])
  assets a ha := absurd ha (by simp [start])
  steps t ht := absurd ht List.not_mem_nil
  limits t ht := absurd ht List.not_mem_nil

section

variable (hnames : p.Unambiguous g)

include hnames

/-- **What is put in finds its name free**, or taken by something of its origin. -/
theorem Tidy.insert (hc : Tidy p gaps g done c) (hr : p.Echoes g r) :
    Meets E (fun c' => Tidy p gaps g done c' ∧ c'.stores = c.stores ∧
      c'.plan.get? r.id = some r) (c.insert r) := by
  obtain ⟨plan, hplan⟩ : ∃ plan, c.plan.insert r = (.ok r.id, plan) := by
    refine ⟨_, Plan.insert_eq_ok_iff.2 ⟨fun held hheld => ?_, rfl, rfl⟩⟩
    obtain ⟨hid, hechoes⟩ := hc.held r.id held hheld
    exact hnames.origin_eq hr hechoes hid
  obtain ⟨hself, hother⟩ := Plan.get?_of_insert hplan
  rw [Compilation.insert_eq_ok_iff.2 ⟨plan, hplan, rfl⟩]
  refine ⟨⟨fun id q hq => ?_, fun a o ho => ?_, hc.assets, hc.steps, hc.limits⟩, rfl, hself⟩
  · by_cases hid : id = r.id
    · subst hid
      obtain rfl := Option.some.inj (hself.symm.trans hq)
      exact ⟨rfl, hr⟩
    · exact hc.held id q ((hother id hid).symm.trans hq)
  · obtain ⟨hname, hheld⟩ := hc.stores a o ho
    refine ⟨hname, fun q hq => ?_⟩
    by_cases hid : q.id = r.id
    · rw [hid]
      exact ⟨r, hself⟩
    · obtain ⟨held, hget⟩ := hheld q hq
      exact ⟨held, (hother q.id hid).trans hget⟩

theorem Tidy.insertAll (hc : Tidy p gaps g done c) (hrs : ∀ r ∈ rs, p.Echoes g r) :
    Meets E (fun c' => Tidy p gaps g done c' ∧ c'.stores = c.stores) (rs.foldlM Compilation.insert c) :=
  Meets.foldlM (P := fun _ c' => Tidy p gaps g done c' ∧ c'.stores = c.stores) [] ⟨hc, rfl⟩
    fun _ r hr _ hc' => (hc'.1.insert hnames (hrs r hr)).mono fun _ h =>
      ⟨h.1, h.2.1.trans hc'.2⟩

omit hnames in
/-- An address was looked at: its storage is in if it has any, and nothing that it asks for is lacking. -/
theorem Tidy.note {a : Address} {o : Option ResourceId} {calls : List Call} (hc : Tidy p gaps g done c)
    (hnew : ¬ (c.stores.lookup a).isSome) (hname : o = (p.storedAt? g a).map Resource.id)
    (hheld : ∀ r, p.storedAt? g a = some r → ∃ q, c.plan.get? r.id = some q)
    (hgranted : ∀ x, g.asset? a = some x → ∀ cap ∈ x.requests, gaps.lacks cap = false) :
    Tidy p gaps g done { c with calls, stores := c.stores ++ [(a, o)] } ∧
      ∀ b, (c.stores.lookup b).isSome ∨ b = a → ((c.stores ++ [(a, o)]).lookup b).isSome := by
  refine ⟨⟨hc.held, fun b held hb => ?_, fun b hb => ?_, hc.steps, hc.limits⟩,
    fun b hb => isSome_lookup_append_pair.2 hb⟩
  · rcases of_lookup_append_pair hb with hb | ⟨rfl, rfl⟩
    · exact hc.stores b held hb
    · exact ⟨hname, hheld⟩
  · rcases isSome_lookup_append_pair.1 hb with hb | rfl
    · exact hc.assets b hb
    · exact hgranted

variable (hjudges : p.Judges gaps)

include hjudges

/-- An address is looked at. -/
theorem Tidy.ensureStore (hc : Tidy p gaps g done c) (a : Address) :
    Meets (p.Refuses gaps g) (fun c' => Tidy p gaps g done c' ∧
      ∀ b, (c.stores.lookup b).isSome ∨ b = a → (c'.stores.lookup b).isSome)
      (ensureStore p Hooks.none g c a) := by
  unfold Compilation.ensureStore
  split
  · rename_i hlooked
    exact ⟨hc, fun b hb => hb.elim id fun heq => heq ▸ hlooked⟩
  rename_i hnew
  split
  · -- there is no such asset, or it is not to be stored
    rename_i hnone
    have hstorage : ∀ x, g.asset? a = some x → x.storage = none := by
      intro x hx
      rw [hx, Option.bind_some, Option.map_eq_none_iff] at hnone
      exact hnone
    have hstored : p.storedAt? g a = none := by
      refine Option.bind_eq_none_iff.2 fun x hx => ?_
      rw [Provider.stored?, hstorage x hx, Option.bind_none]
    refine hc.note hnew (by rw [hstored, Option.map_none]) (fun r hr => ?_) fun x hx cap hcap => ?_
    · exact absurd (hstored.symm.trans hr) (by simp)
    · rw [Asset.requests, hstorage x hx] at hcap
      exact absurd hcap List.not_mem_nil
  · rename_i hfound
    obtain ⟨x, hx, hpair⟩ := Option.bind_eq_some_iff.1 hfound
    obtain ⟨spec, hspec, heq⟩ := Option.map_eq_some_iff.1 hpair
    obtain ⟨rfl, rfl⟩ := Prod.mk.inj heq
    obtain rfl := Provider.address_of_asset? hx
    have hmem : x ∈ g.assets := List.mem_of_find?_eq_some hx
    have hrequests : x.requests = spec.medium.requests := by
      rw [Asset.requests, hspec]
      rfl
    refine ((hjudges.storage x spec).meets fun cap hcap => ?_).bind fun made hmade => ?_
    · exact Graph.mem_requests_iff.2 (.inl ⟨x, hmem, hrequests ▸ hcap, rfl⟩)
    obtain ⟨hmade, hgranted⟩ := hmade
    have hstored : p.stored? x = some (made.madeFor x.address.text) :=
      Provider.stored?_eq_some_iff.2 ⟨spec, made, hspec, hmade, rfl⟩
    have hstoredAt : p.storedAt? g x.address = some (made.madeFor x.address.text) := by
      rw [Provider.storedAt?, hx, Option.bind_some, hstored]
    refine (hc.insert hnames (Provider.Gives.storage hmem hstored).echoes).bind fun c₁ h₁ => ?_
    obtain ⟨hc₁, hstores, hself⟩ := h₁
    rw [← hstores] at hnew ⊢
    refine hc₁.note hnew (by rw [hstoredAt]; rfl) (fun r hr => ?_) fun y hy => ?_
    · obtain rfl := Option.some.inj (hstoredAt.symm.trans hr)
      exact ⟨_, hself⟩
    · obtain rfl := Option.some.inj (hx.symm.trans hy)
      rwa [hrequests]

/-- Addresses are looked at one after the other. -/
theorem Tidy.ensureAll (hc : Tidy p gaps g done c) (as : List Address) :
    Meets (p.Refuses gaps g) (fun c' => Tidy p gaps g done c' ∧
      ∀ a ∈ as, (c'.stores.lookup a).isSome) (as.foldlM (Compilation.ensureStore p Hooks.none g) c) := by
  refine Meets.foldlM (P := fun looked c' => Tidy p gaps g done c' ∧
    ∀ a ∈ looked, (c'.stores.lookup a).isSome) [] ⟨hc, by simp⟩ fun looked a _ c' hc' => ?_
  refine (hc'.1.ensureStore hnames hjudges a).mono fun c'' h'' => ⟨h''.1, fun b hb => h''.2 b ?_⟩
  rcases List.mem_append.1 hb with hb | hb
  · exact .inl (hc'.2 b hb)
  · exact .inr (List.mem_singleton.1 hb)

/-- What starts a step is named as it should be, and put in if the step has a schedule. -/
theorem Tidy.addTrigger {made : Runner} (hs : s ∈ g.steps) (hmade : p.runner? g s = some made)
    (hc : Tidy p gaps g done c) : Meets (p.Refuses gaps g) (fun c' => Tidy p gaps g done c' ∧
      ∀ cap ∈ s.task.schedule.elim [] Schedule.requests, gaps.lacks cap = false)
      (addTrigger p s made.compute.id c) := by
  unfold Compilation.addTrigger
  split
  · rename_i hnone
    exact ⟨hc, by simp [hnone]⟩
  · rename_i schedule hschedule
    refine ((hjudges.schedule s schedule _).meets fun cap hcap => ?_).bind fun trigger htrigger => ?_
    · refine Graph.mem_requests_iff.2 (.inr ⟨s, hs, ?_, rfl⟩)
      refine List.mem_append_right _ (List.mem_append_left _ ?_)
      rwa [hschedule]
    · obtain ⟨htrigger, hgranted⟩ := htrigger
      have hgives : p.Gives g .trigger ((trigger.depend made.compute.id).madeFor s.origin) :=
        .trigger hs hmade ⟨schedule, trigger, hschedule, htrigger, rfl⟩
      rw [hschedule]
      exact (hc.insert hnames hgives.echoes).mono fun c' h' => ⟨h'.1, hgranted⟩

/-- What watches a step is named as it should be, and put in if the step has monitoring. -/
theorem Tidy.addAlerts {made : Runner} (hs : s ∈ g.steps) (hmade : p.runner? g s = some made)
    (hc : Tidy p gaps g done c) : Meets (p.Refuses gaps g) (fun c' => Tidy p gaps g done c' ∧
      (∀ cap ∈ s.task.monitoring.elim [] fun _ => [Capability.monitoring], gaps.lacks cap = false) ∧
      s.task.monitoring.any gaps.overflows = false)
      (addAlerts p s made.compute.id c) := by
  unfold Compilation.addAlerts
  split
  · rename_i hnone
    exact ⟨hc, by simp [hnone], by simp [hnone]⟩
  · rename_i m hm
    refine (hjudges.meets_monitoring hs hm _).bind fun alerts halerts => ?_
    obtain ⟨halerts, hgranted, hfits⟩ := halerts
    have hall : ∀ r ∈ alerts.map fun t => (t.depend made.compute.id).madeFor s.origin, p.Echoes g r := by
      intro r hr
      obtain ⟨t, ht, rfl⟩ := List.mem_map.1 hr
      exact (Provider.Gives.alert hs hmade ⟨m, alerts, hm, halerts, t, ht, rfl⟩).echoes
    have hinserts := hc.insertAll (E := p.Refuses gaps g) hnames hall
    rw [List.foldlM_map] at hinserts
    rw [hm]
    exact hinserts.mono fun c' h' => ⟨h'.1, hgranted, hfits⟩

omit hnames hjudges in
/-- A step is bound to storage of the names that were made for what it touches. -/
theorem Tidy.forall₂_bindings (hpoint : p.Pointless g) (hc : Tidy p gaps g done c)
    (hlooked : ∀ t ∈ touched s, (c.stores.lookup t.1).isSome) :
    List.Forall₂ Binding.Namesake (bindings g c s) (p.bindings g s) := by
  have hsame : List.Forall₂ (fun t u => t = u ∧ (c.stores.lookup t.1).isSome) (touched s) (touched s) :=
    List.forall₂_same.2 fun t ht => ⟨rfl, hlooked t ht⟩
  refine List.rel_filterMap ?_ hsame
  rintro ⟨a, access⟩ _ ⟨rfl, hlooked⟩
  dsimp only at hlooked ⊢
  cases hx : g.asset? a with
  | none => exact .none
  | some x =>
    refine .some ⟨rfl, rfl, ?_⟩
    obtain ⟨o, ho⟩ := Option.isSome_iff_exists.1 hlooked
    obtain ⟨rfl, hheld⟩ := hc.stores a o ho
    have hstored : p.storedAt? g a = p.stored? x := by rw [Provider.storedAt?, hx, Option.bind_some]
    rw [hstored] at hheld
    dsimp only
    rw [store?, ho, Option.join_some, hstored]
    cases hr : p.stored? x with
    | none => exact .none
    | some r =>
      obtain ⟨q, hq⟩ := hheld r hr
      obtain ⟨hid, hechoes⟩ := hc.held _ q hq
      rw [Option.map_some, Option.bind_some, hq]
      exact .some (hpoint.namesake (.storage (List.mem_of_find?_eq_some hx) hr) hechoes hid)

variable (hnominal : p.Nominal) (hpoint : p.Pointless g)

include hnominal hpoint

omit hnames in
/-- What runs a step is named as it should be. -/
theorem Tidy.makeRunner (hs : s ∈ g.steps) (hc : Tidy p gaps g done c)
    (hlooked : ∀ t ∈ touched s, (c.stores.lookup t.1).isSome) :
    Meets (p.Refuses gaps g) (fun out => Tidy p gaps g done out.2 ∧
      (∀ cap ∈ s.kind.requests, gaps.lacks cap = false) ∧ ∃ made, p.runner? g s = some made ∧
        out.1.compute.id = made.compute.id ∧ p.Echoes g out.1.compute ∧
        ∀ q ∈ out.1.access, p.Echoes g (q.madeFor s.origin)) (makeRunner p Hooks.none g c s) := by
  unfold Compilation.makeRunner
  refine ((hjudges.compute s _).meets fun cap hcap => ?_).bind fun made hmade => ?_
  · refine Graph.mem_requests_iff.2 (.inr ⟨s, hs, ?_, rfl⟩)
    exact List.mem_append_left _ hcap
  obtain ⟨hmade, hgranted⟩ := hmade
  obtain ⟨made', hmade', hcompute, haccess⟩ :=
    hnominal s _ _ (hc.forall₂_bindings hpoint hlooked) made hmade
  have hrunner : p.runner? g s = some made' := Provider.runner?_eq_some_iff.2 hmade'
  have hlinked : Resource.Namesake (((((made.compute.madeFor s.origin).dependAll
      ((touched s).filterMap fun t => c.store? t.1)).dependAll
        (made.access.map Resource.id)).dependAll
          ((g.upstream s.id).filterMap fun id => c.runners.lookup id))) made.compute :=
    (Resource.namesake_dependAll _ _).trans ((Resource.namesake_dependAll _ _).trans
      ((Resource.namesake_dependAll _ _).trans (Resource.namesake_madeFor _ _)))
  refine ⟨⟨hc.held, hc.stores, hc.assets, hc.steps, hc.limits⟩, hgranted, made', hrunner,
    (hlinked.trans hcompute).id_eq, ⟨.compute, _, .compute hs hrunner, ?_, ?_⟩, fun q hq => ?_⟩
  · exact hlinked.trans (hcompute.trans (p.namesake_linked g s made').symm)
  · rw [Provider.origin_linked, Hooks.apply, Hooks.none, List.foldl_nil, Resource.origin_dependAll,
      Resource.origin_dependAll, Resource.origin_dependAll, Resource.origin_madeFor]
  · obtain ⟨q', hq', hnamesake⟩ := exists_of_forall₂_right haccess.flip hq
    exact ⟨.access, _, .access hs hrunner hq', ⟨hnamesake.kind, hnamesake.name⟩, rfl⟩

/-- **One step of a run.** -/
theorem Tidy.addStep (hs : s ∈ g.steps) (hc : Tidy p gaps g done c) :
    Meets (p.Refuses gaps g) (Tidy p gaps g (done ++ [s])) (addStep p Hooks.none g c s) := by
  have hlooks := hc.ensureAll hnames hjudges ((touched s).map (·.1))
  rw [List.foldlM_map] at hlooks
  unfold Compilation.addStep
  refine hlooks.bind fun c₁ h₁ => ?_
  obtain ⟨hc₁, hlooked⟩ := h₁
  have hlooked : ∀ t ∈ touched s, (c₁.stores.lookup t.1).isSome :=
    fun t ht => hlooked t.1 (List.mem_map_of_mem ht)
  refine (hc₁.makeRunner hjudges hnominal hpoint hs hlooked).bind fun out hout => ?_
  obtain ⟨⟨compute, access⟩, c₂⟩ := out
  obtain ⟨hc₂, hkind, made, hmade, hid, hcompute, haccess⟩ := hout
  dsimp only at hc₂ hid hcompute haccess ⊢
  refine (hc₂.insert hnames hcompute).bind fun c₃ h₃ => ?_
  have haccess : ∀ r ∈ access.map (·.madeFor s.origin), p.Echoes g r := List.forall_mem_map.2 haccess
  have hinserts := h₃.1.insertAll (E := p.Refuses gaps g) hnames haccess
  rw [List.foldlM_map] at hinserts
  refine hinserts.bind fun c₄ h₄ => ?_
  rw [hid]
  refine (h₄.1.addTrigger hnames hjudges hs hmade).bind fun c₅ h₅ => ?_
  obtain ⟨hc₅, hschedule⟩ := h₅
  refine (hc₅.addAlerts hnames hjudges hs hmade).bind fun c₆ h₆ => ?_
  obtain ⟨hc₆, hmonitoring, hlimit⟩ := h₆
  refine ⟨hc₆.held, hc₆.stores, hc₆.assets, List.forall_mem_append.2 ⟨hc₆.steps, ?_⟩,
    List.forall_mem_append.2 ⟨hc₆.limits, by simpa using hlimit⟩⟩
  rw [List.forall_mem_singleton]
  intro cap hcap
  rcases List.mem_append.1 hcap with hcap | hcap
  · exact hkind cap hcap
  · exact (List.mem_append.1 hcap).elim (hschedule cap) (hmonitoring cap)

/-- **A whole run** grants all that the graph asks for and overflows nowhere, or refuses some of it or
overflows, or misses a dependency. -/
theorem meets_ofGraph (hassets : (g.assets.map (·.address)).Nodup) :
    Meets (fun fault => p.Refuses gaps g fault ∨ fault.IsDangling)
      (fun _ => g.Fits gaps.lacks ∧ g.InRange gaps.overflows)
      (ofGraph p Hooks.none g) := by
  unfold ofGraph
  have hsteps : Meets (p.Refuses gaps g) (Tidy p gaps g g.steps)
      (g.steps.foldlM (Compilation.addStep p Hooks.none g) (start p)) :=
    Meets.foldlM (P := Tidy p gaps g) [] tidy_start
      fun done s hs c hc => hc.addStep hnames hjudges hnominal hpoint hs
  refine (hsteps.weaken fun _ => .inl).bind fun c₁ hc₁ => ?_
  refine ((hc₁.ensureAll hnames hjudges _).weaken fun _ => .inl).bind fun c₂ h₂ => ?_
  obtain ⟨hc₂, hlooked⟩ := h₂
  have hfits : g.Fits gaps.lacks := by
    refine Graph.fits_iff.2 ⟨fun x hx => ?_, hc₂.steps⟩
    exact hc₂.assets x.address (hlooked x.address (List.mem_map_of_mem hx)) x
      ((Provider.asset?_eq_some_iff hassets).2 ⟨hx, rfl⟩)
  -- what is left is the check
  unfold Plan.checked
  split
  · exact .inr trivial
  · exact ⟨hfits, hc₂.limits⟩

end

end Compilation

end Provenance
