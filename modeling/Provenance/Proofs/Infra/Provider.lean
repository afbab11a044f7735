import Provenance.Infra.Provider.Aws
import Provenance.Infra.Provider.Dataproc
import Provenance.Infra.Provider.Kubernetes
import Provenance.Infra.Provider.Machine
import Provenance.Proofs.Infra.Naming
import Provenance.Proofs.Infra.Plan

/-!
# What providers have in common

The kind of a resource says which part it plays (`Part`): no kind plays two.  A provider is `Orderly` if
what it makes plays the part that it is made for, if the names of storage and of runners end in digests,
and if nothing depends on anything before the compiler adds dependencies.

The four providers are (`Provider.Standard`), and this is all that is used of them where a plan is
compared with its graph.  Less is needed to tell resources apart, and providers with kinds of their own have
it as well: `Provider.Legible` asks for kinds that can be read as parts, and for names with digests.

What the four make for access stands on two levels.  Some of it depends on storage at most, and the rest
leans on that (`Resource.Leans`, `Provider.Layered`); nothing else is depended on (`SelfContained`).
-/

namespace Provenance

/-- The uses of storage are the bindings to assets that have storage. -/
theorem mem_stored_iff {bs : List Binding} {access : Access} {x : Asset} {r : Resource} :
    (access, x, r) ∈ stored bs ↔ ⟨x, some r, access⟩ ∈ bs := by
  unfold stored
  rw [List.mem_filterMap]
  constructor
  · rintro ⟨⟨y, resource, access'⟩, hb, hr⟩
    obtain ⟨q, rfl, heq⟩ := Option.map_eq_some_iff.1 hr
    simp only [Prod.mk.injEq] at heq
    obtain ⟨rfl, rfl, rfl⟩ := heq
    exact hb
  · exact fun hb => ⟨_, hb, rfl⟩

/-! ## Parts -/

/-- The part that a resource plays. -/
inductive Part where
  | storage
  | compute
  | access
  | trigger
  | alert
  deriving DecidableEq

/-- The kinds of resources that play a part. -/
def Part.kinds : Part → List String
  | storage => ["aws_s3_bucket", "aws_glue_catalog_table", "aws_efs_file_system",
      "google_storage_bucket", "google_bigquery_table", "kubernetes_persistent_volume_claim",
      "local_directory"]
  | compute => ["aws_lambda_function", "google_dataproc_workflow_template", "google_dataproc_batch",
      "kubernetes_job", "local_process"]
  | access => ["aws_iam_role", "aws_iam_role_policy", "google_service_account",
      "google_storage_bucket_iam_member", "google_bigquery_table_iam_member",
      "kubernetes_service_account", "kubernetes_role", "kubernetes_role_binding",
      "local_file_permission"]
  | trigger => ["aws_cloudwatch_event_rule", "google_cloud_scheduler_job", "kubernetes_cron_job"]
  | alert => ["aws_cloudwatch_metric_alarm", "google_monitoring_alert_policy", "kubernetes_manifest",
      "local_log_alert"]

/-- The resource plays a part. -/
def Resource.Plays (r : Resource) (part : Part) : Prop := r.kind ∈ part.kinds

instance (r : Resource) (part : Part) : Decidable (r.Plays part) :=
  inferInstanceAs (Decidable (r.kind ∈ part.kinds))

namespace Resource

variable {r q : Resource} {part part' : Part}

/-- No kind plays two parts. -/
theorem Plays.unique (h : r.Plays part) (h' : r.Plays part') : part = part' := by
  have hall : ∀ part part' : Part, part ≠ part' → ∀ kind ∈ part.kinds, kind ∉ part'.kinds := by
    intro part part'
    cases part <;> cases part' <;> decide
  by_contra hne
  exact hall part part' hne r.kind h h'

/-- There is no point in a kind. -/
theorem Plays.not_mem (h : r.Plays part) : '.' ∉ r.kind.toList := by
  have hall : ∀ kind ∈ part.kinds, '.' ∉ kind.toList := by
    cases part <;> decide
  exact hall r.kind h

/-- Resources that play parts are named by their kinds and their names. -/
theorem Plays.of_id (h : r.Plays part) (h' : q.Plays part') (hid : r.id = q.id) :
    r.kind = q.kind ∧ r.name = q.name := idOf_inj h.not_mem h'.not_mem hid

/-- Resources of one name in a plan play one part. -/
theorem Plays.eq_of_id (h : r.Plays part) (h' : q.Plays part') (hid : r.id = q.id) : part = part' := by
  obtain ⟨hkind, -⟩ := h.of_id h' hid
  refine h.unique ?_
  unfold Plays at h' ⊢
  rwa [hkind]

end Resource

/-- The kind of the resource, read as a part; and there is no point in it. -/
def Resource.StandsFor (r : Resource) (cast : String → Part) (part : Part) : Prop :=
  cast r.kind = part ∧ '.' ∉ r.kind.toList

namespace Resource

variable {r q : Resource} {cast : String → Part} {part part' : Part}

/-- Resources that stand for parts are named by their kinds and their names. -/
theorem StandsFor.of_id (h : r.StandsFor cast part) (h' : q.StandsFor cast part') (hid : r.id = q.id) :
    r.kind = q.kind ∧ r.name = q.name := idOf_inj h.2 h'.2 hid

/-- Resources of one name in a plan stand for one part. -/
theorem StandsFor.eq_of_id (h : r.StandsFor cast part) (h' : q.StandsFor cast part') (hid : r.id = q.id) :
    part = part' := by
  rw [← h.1, ← h'.1, (h.of_id h' hid).1]

end Resource

/-- The part that a kind of the four providers stands for. -/
def Part.ofKind (kind : String) : Part :=
  if kind ∈ storage.kinds then .storage
  else if kind ∈ compute.kinds then .compute
  else if kind ∈ access.kinds then .access
  else if kind ∈ trigger.kinds then .trigger
  else .alert

theorem Resource.Plays.standsFor {r : Resource} {part : Part} (h : r.Plays part) :
    r.StandsFor Part.ofKind part := by
  have hall : ∀ part : Part, ∀ kind ∈ part.kinds, Part.ofKind kind = part := by
    intro part
    cases part <;> decide
  exact ⟨hall part r.kind h, h.not_mem⟩

/-! ## Orderly providers -/

namespace Provider

/-- The resources play the parts that they are made for, the names of storage and of runners are told
apart by digests, and there are no dependencies. -/
structure Orderly (p : Provider) : Prop where
  storage : ∃ room, ∀ a spec r, p.storage a spec = .ok r →
    r.Plays .storage ∧ r.name = Naming.storage a.address room '-'
  compute : ∃ room, ∀ s bs made, p.compute s bs = .ok made →
    made.compute.Plays .compute ∧ made.compute.dependsOn = .empty ∧
      made.compute.name = Naming.step s room '-' ∧ ∀ q ∈ made.access, q.Plays .access
  schedule : ∀ s schedule runner r, p.schedule s schedule runner = .ok r →
    r.Plays .trigger ∧ r.dependsOn = .empty
  monitoring : ∀ s monitoring runner rs, p.monitoring s monitoring runner = .ok rs →
    ∀ r ∈ rs, r.Plays .alert ∧ r.dependsOn = .empty

/-- The resources stand for the parts that they are made for, under some reading of kinds, and the names of
storage and of runners are told apart by digests. -/
structure Legible (p : Provider) (cast : String → Part) : Prop where
  storage : ∃ room sep, ∀ x spec r, p.storage x spec = .ok r →
    r.StandsFor cast .storage ∧ r.name = Naming.storage x.address room sep
  compute : ∃ room sep, ∀ s bs made, p.compute s bs = .ok made →
    made.compute.StandsFor cast .compute ∧ made.compute.name = Naming.step s room sep ∧
      ∀ q ∈ made.access, q.StandsFor cast .access
  schedule : ∀ s schedule runner r, p.schedule s schedule runner = .ok r → r.StandsFor cast .trigger
  monitoring : ∀ s monitoring runner rs, p.monitoring s monitoring runner = .ok rs →
    ∀ r ∈ rs, r.StandsFor cast .alert

theorem Orderly.legible {p : Provider} (hp : p.Orderly) : p.Legible Part.ofKind where
  storage := by
    obtain ⟨room, hstorage⟩ := hp.storage
    exact ⟨room, '-', fun x spec r hr => ⟨(hstorage x spec r hr).1.standsFor, (hstorage x spec r hr).2⟩⟩
  compute := by
    obtain ⟨room, hcompute⟩ := hp.compute
    refine ⟨room, '-', fun s bs made hmade => ?_⟩
    obtain ⟨hplays, -, hname, haccess⟩ := hcompute s bs made hmade
    exact ⟨hplays.standsFor, hname, fun q hq => (haccess q hq).standsFor⟩
  schedule s schedule runner r hr := (hp.schedule s schedule runner r hr).1.standsFor
  monitoring s monitoring runner rs hrs r hr := (hp.monitoring s monitoring runner rs hrs r hr).1.standsFor

/-- Storage depends on nothing, and access resources on storage that the step is bound to and on one
another. -/
structure SelfContained (p : Provider) : Prop where
  storage : ∀ x spec r, p.storage x spec = .ok r → r.dependsOn = .empty
  access : ∀ s bs made, p.compute s bs = .ok made → ∀ q ∈ made.access, ∀ id ∈ q.dependsOn.toList,
    (∃ e ∈ stored bs, e.2.2.id = id) ∨ ∃ q' ∈ made.access, q'.id = id

/-- The providers that come with the library. -/
inductive Standard : Provider → Prop
  | aws (region : String) : Standard (Aws.provider region)
  | dataproc (project region : String) : Standard (Dataproc.provider project region)
  | kubernetes (space image : String) : Standard (Kubernetes.provider space image)
  | machine (root : String) : Standard (Machine.provider root)

/-- A provider with nothing of its own: an asset is a store and a step is a job, with the defaults for
schedules and monitoring. -/
def basic : Provider where
  name := "basic"
  nameFor a := Naming.storage a.address 40 '-'
  storage a _ := .ok (.plain "store" (Naming.storage a.address 40 '-'))
  compute s _ := .ok ⟨.plain "job" (Naming.step s 40 '-'), []⟩

end Provider

theorem Aws.plays_store (region : String) (a : Asset) (spec : StorageSpec) :
    (Aws.store region a spec).Plays .storage ∧
      (Aws.store region a spec).name = Naming.storage a.address Aws.room '-' := by
  unfold Aws.store Resource.Plays
  cases spec.medium <;> simp [Part.kinds, Resource.plain]

theorem Aws.plays_role (s : Step) : (Aws.role s).Plays .access := by
  simp [Resource.Plays, Part.kinds, Aws.role, Resource.plain]

theorem Aws.plays_policy (region : String) (s : Step) (access : Access) (r : Resource) :
    (Aws.policy region s access r).Plays .access := by
  simp [Resource.Plays, Part.kinds, Aws.policy, Resource.plain]

/-- What AWS makes of a step, if it is not for a cluster. -/
theorem Aws.of_compute {region : String} {s : Step} {bs : List Binding} {made : Runner}
    (h : (Aws.provider region).compute s bs = .ok made) : made = ⟨Aws.function region s,
      Aws.role s :: (stored bs).map fun e => Aws.policy region s e.1 e.2.2⟩ := by
  dsimp only [Aws.provider] at h
  split at h
  · exact absurd h (by simp)
  · exact (Except.ok.inj h).symm

/-- The limit of a task has more milliseconds than fit into 64 bits. -/
def Aws.overflows (m : Monitoring) : Bool := m.maxDurationSecs.any fun secs => 2 ^ 64 ≤ 1000 * secs.toNat

theorem Aws.overflows_eq_false_iff {m : Monitoring} :
    overflows m = false ↔ ∀ secs, m.maxDurationSecs = some secs → 1000 * secs.toNat < 2 ^ 64 := by
  simp [overflows, Option.any_eq_false]

/-- **The alarms of a step**: on errors if they are wanted, on the duration if there is a limit.  Where the
limit in milliseconds does not fit, there are none. -/
theorem Aws.alarms_eq (s : Step) (m : Monitoring) : Aws.alarms s m =
    if Aws.overflows m then .error .overflow
    else .ok ((if m.alertOnFailure then [Aws.alarm s m "-errors" "Errors" "Sum" 0] else []) ++
      (m.maxDurationSecs.map fun secs =>
        Aws.alarm s m "-duration" "Duration" "Maximum" (secs * 1000)).toList) := by
  unfold Aws.alarms Aws.overflows Aws.millis
  generalize (if m.alertOnFailure then [Aws.alarm s m "-errors" "Errors" "Sum" 0] else []) = errors
  cases m.maxDurationSecs with
  | none => simp [pure, Except.pure]
  | some secs =>
    rw [Option.any_some, show UInt64.size = 2 ^ 64 from rfl]
    dsimp only
    by_cases hfits : 1000 * secs.toNat < 2 ^ 64
    · rw [if_pos hfits, if_neg (by simpa using hfits)]
      rfl
    · rw [if_neg hfits, if_pos (by simpa using hfits)]
      rfl

/-- What watches a step is an alarm on errors or on the duration. -/
theorem Aws.of_alarms {s : Step} {m : Monitoring} {rs : List Resource} {r : Resource}
    (h : Aws.alarms s m = .ok rs) (hr : r ∈ rs) : ∃ ending metric statistic threshold,
      (ending = "-errors" ∨ ending = "-duration") ∧ r = Aws.alarm s m ending metric statistic threshold := by
  rw [Aws.alarms_eq] at h
  split at h
  · exact absurd h (by simp)
  · obtain rfl := Except.ok.inj h
    rcases List.mem_append.1 hr with hr | hr
    · split at hr
      · exact ⟨_, _, _, _, .inl rfl, List.mem_singleton.1 hr⟩
      · exact absurd hr List.not_mem_nil
    · obtain ⟨secs, -, rfl⟩ := Option.map_eq_some_iff.1 (Option.mem_toList.1 hr)
      exact ⟨_, _, _, _, .inr rfl, rfl⟩

theorem Aws.orderly (region : String) : (Aws.provider region).Orderly where
  storage := by
    refine ⟨Aws.room, fun a spec r h => ?_⟩
    obtain rfl := Except.ok.inj h
    exact Aws.plays_store region a spec
  compute := by
    refine ⟨59, fun s bs made h => ?_⟩
    obtain rfl := Aws.of_compute h
    refine ⟨by simp [Resource.Plays, Part.kinds, Aws.function, Resource.plain], rfl, rfl, ?_⟩
    refine List.forall_mem_cons.2 ⟨Aws.plays_role s, fun q hq => ?_⟩
    obtain ⟨e, -, rfl⟩ := List.mem_map.1 hq
    exact Aws.plays_policy _ _ _ _
  schedule := by
    intro s schedule runner r h
    dsimp only [Aws.provider, Aws.rule] at h
    split at h
    · exact absurd h (by simp)
    · obtain rfl := Except.ok.inj h
      simp [Resource.Plays, Part.kinds, Resource.plain]
  monitoring := by
    intro s monitoring runner rs h r hr
    obtain ⟨ending, metric, statistic, threshold, -, rfl⟩ := Aws.of_alarms h hr
    exact ⟨by simp [Resource.Plays, Part.kinds, Aws.alarm, Resource.plain], rfl⟩

theorem Dataproc.plays_runner {project region : String} {s : Step} {r : Resource}
    (h : Dataproc.runner project region s = .ok r) :
    r.Plays .compute ∧ r.dependsOn = .empty ∧ r.name = Naming.step s 50 '-' := by
  unfold Dataproc.runner at h
  dsimp only at h
  split at h
  · obtain rfl := Except.ok.inj h
    exact ⟨by simp [Resource.Plays, Part.kinds, Resource.plain], rfl, rfl⟩
  · obtain rfl := Except.ok.inj h
    exact ⟨by simp [Resource.Plays, Part.kinds, Resource.plain], rfl, rfl⟩
  · exact absurd h (by simp)

theorem Dataproc.plays_member (project : String) (s : Step) (access : Access) (r : Resource) :
    (Dataproc.member project s access r).Plays .access := by
  unfold Dataproc.member Resource.Plays
  dsimp only
  split <;> simp [Part.kinds, Resource.plain]

/-- What Dataproc stores data in: a bucket or a table, which depends on nothing. -/
theorem Dataproc.of_store {project region : String} {a : Asset} {spec : StorageSpec} {r : Resource}
    (h : Dataproc.store project region a spec = .ok r) :
    (r.kind = "google_storage_bucket" ∨ r.kind = "google_bigquery_table") ∧
      r.name = Naming.storage a.address Dataproc.room '-' ∧ r.dependsOn = .empty := by
  unfold Dataproc.store at h
  dsimp only at h
  split at h
  · obtain rfl := Except.ok.inj h
    simp [Resource.plain]
  · obtain rfl := Except.ok.inj h
    simp [Resource.plain]
  · exact absurd h (by simp)

theorem Dataproc.orderly (project region : String) : (Dataproc.provider project region).Orderly where
  storage := by
    refine ⟨Dataproc.room, fun a spec r h => ?_⟩
    obtain ⟨hkind, hname, -⟩ := Dataproc.of_store h
    refine ⟨?_, hname⟩
    rcases hkind with hkind | hkind <;> simp [Resource.Plays, Part.kinds, hkind]
  compute := by
    refine ⟨50, fun s bs made h => ?_⟩
    obtain ⟨compute, hcompute, rfl⟩ := map_eq_ok_iff.1 h
    obtain ⟨hplays, hdepends, hname⟩ := Dataproc.plays_runner hcompute
    refine ⟨hplays, hdepends, hname, List.forall_mem_cons.2
      ⟨by simp [Resource.Plays, Part.kinds, Dataproc.account, Resource.plain], fun q hq => ?_⟩⟩
    obtain ⟨e, -, rfl⟩ := List.mem_map.1 hq
    exact Dataproc.plays_member _ _ _ _
  schedule := by
    intro s schedule runner r h
    obtain rfl := Except.ok.inj h
    exact ⟨by simp [Resource.Plays, Part.kinds, Dataproc.scheduler, Resource.plain], rfl⟩
  monitoring := by
    intro s monitoring runner rs h r hr
    obtain rfl := Except.ok.inj h
    unfold Dataproc.alerts at hr
    split at hr
    · exact absurd hr List.not_mem_nil
    · obtain rfl := List.mem_singleton.1 hr
      exact ⟨by simp [Resource.Plays, Part.kinds, Resource.plain], rfl⟩

/-- What Kubernetes stores data in: a claim, which depends on nothing. -/
theorem Kubernetes.of_claim {space : String} {a : Asset} {spec : StorageSpec} {r : Resource}
    (h : Kubernetes.claim space a spec = .ok r) : r.kind = "kubernetes_persistent_volume_claim" ∧
      r.name = Naming.storage a.address Kubernetes.room '-' ∧ r.dependsOn = .empty := by
  unfold Kubernetes.claim at h
  dsimp only at h
  split at h
  · obtain rfl := Except.ok.inj h
    exact ⟨rfl, rfl, rfl⟩
  · obtain rfl := Except.ok.inj h
    exact ⟨rfl, rfl, rfl⟩
  · exact absurd h (by simp)

theorem Kubernetes.orderly (space image : String) : (Kubernetes.provider space image).Orderly where
  storage := by
    refine ⟨Kubernetes.room, fun a spec r h => ?_⟩
    obtain ⟨hkind, hname, -⟩ := Kubernetes.of_claim h
    exact ⟨by simp [Resource.Plays, Part.kinds, hkind], hname⟩
  compute := by
    refine ⟨Kubernetes.room, fun s bs made h => ?_⟩
    obtain rfl := Except.ok.inj h
    refine ⟨by simp [Resource.Plays, Part.kinds, Kubernetes.job, Kubernetes.inSpace, Resource.plain],
      rfl, rfl, ?_⟩
    simp [Resource.Plays, Part.kinds, Kubernetes.account, Kubernetes.role, Kubernetes.roleBinding,
      Kubernetes.inSpace, Resource.plain]
  schedule := by
    intro s schedule runner r h
    obtain rfl := Except.ok.inj h
    simp [Resource.Plays, Part.kinds, Kubernetes.cronJob, Kubernetes.inSpace, Resource.plain]
  monitoring := by
    intro s monitoring runner rs h r hr
    obtain rfl := Except.ok.inj h
    unfold Kubernetes.alerts at hr
    split at hr
    · exact absurd hr List.not_mem_nil
    · obtain rfl := List.mem_singleton.1 hr
      exact ⟨by simp [Resource.Plays, Part.kinds, Kubernetes.inSpace, Resource.plain], rfl⟩

theorem Machine.plays_permission (s : Step) (access : Access) (r : Resource) :
    (Machine.permission s access r).Plays .access := by
  simp [Resource.Plays, Part.kinds, Machine.permission, Resource.plain]

theorem Machine.orderly (root : String) : (Machine.provider root).Orderly where
  storage := by
    refine ⟨Machine.room, fun a spec r h => ?_⟩
    obtain rfl := Except.ok.inj h
    simp [Resource.Plays, Part.kinds, Machine.directory, Resource.plain]
  compute := by
    refine ⟨Machine.room, fun s bs made h => ?_⟩
    obtain rfl := Except.ok.inj h
    refine ⟨by simp [Resource.Plays, Part.kinds, Machine.process, Resource.plain], rfl, rfl,
      fun q hq => ?_⟩
    obtain ⟨e, -, rfl⟩ := List.mem_map.1 hq
    exact Machine.plays_permission _ _ _
  schedule := by
    intro s schedule runner r h
    exact absurd h (by simp [Machine.provider])
  monitoring := by
    intro s monitoring runner rs h r hr
    obtain rfl := Except.ok.inj h
    obtain rfl := List.mem_singleton.1 hr
    simp [Resource.Plays, Part.kinds, Machine.alert, Resource.plain]

/-- **The four providers are orderly.** -/
theorem Provider.Standard.orderly {p : Provider} (h : p.Standard) : p.Orderly := by
  cases h with
  | aws region => exact Aws.orderly region
  | dataproc project region => exact Dataproc.orderly project region
  | kubernetes space image => exact Kubernetes.orderly space image
  | machine root => exact Machine.orderly root

/-! ## What depends on what -/

section

variable {s : Step} {access : Access} {r : Resource} {id : ResourceId}

theorem Aws.dependsOn_policy {region : String} :
    id ∈ (Aws.policy region s access r).dependsOn.toList ↔ id = (Aws.role s).id ∨ id = r.id := by
  have hnone : id ∉ KeySet.empty.toList := List.not_mem_nil
  unfold Aws.policy
  simp [Resource.mem_depend, Resource.plain, hnone]

theorem Dataproc.dependsOn_member {project : String} :
    id ∈ (Dataproc.member project s access r).dependsOn.toList ↔
      id = (Dataproc.account project s).id ∨ id = r.id := by
  have hnone : id ∉ KeySet.empty.toList := List.not_mem_nil
  unfold Dataproc.member
  by_cases htable : r.kind = "google_bigquery_table" <;>
    simp [htable, Resource.mem_depend, Resource.plain, hnone]

theorem Machine.dependsOn_permission :
    id ∈ (Machine.permission s access r).dependsOn.toList ↔ id = r.id := by
  unfold Machine.permission
  rw [Resource.toList_depend _ rfl, List.mem_singleton]

end

/-! ### Access resources on two levels -/

/-- The kinds of access resources that depend on other access resources. -/
def Resource.leaningKinds : List String :=
  ["aws_iam_role_policy", "google_storage_bucket_iam_member", "google_bigquery_table_iam_member",
    "kubernetes_role_binding"]

/-- The resource is of a kind that depends on other access resources. -/
def Resource.Leans (r : Resource) : Prop := r.kind ∈ leaningKinds

instance (r : Resource) : Decidable r.Leans := inferInstanceAs (Decidable (r.kind ∈ Resource.leaningKinds))

theorem Resource.leans_congr {r q : Resource} (h : r.kind = q.kind) : r.Leans ↔ q.Leans := by
  unfold Leans
  rw [h]

/-- Access resources depend on storage that the step is bound to, and those that lean depend on some that do
not. -/
def Provider.Layered (p : Provider) : Prop :=
  ∀ s bs made, p.compute s bs = .ok made → ∀ q ∈ made.access, ∀ id ∈ q.dependsOn.toList,
    (∃ e ∈ stored bs, e.2.2.id = id) ∨ q.Leans ∧ ∃ q' ∈ made.access, ¬ q'.Leans ∧ q'.id = id

theorem Aws.layered (region : String) : (Aws.provider region).Layered := by
  intro s bs made h q hq id hid
  obtain rfl := Aws.of_compute h
  rcases List.mem_cons.1 hq with rfl | hq
  · exact absurd hid List.not_mem_nil
  · obtain ⟨e, he, rfl⟩ := List.mem_map.1 hq
    rcases Aws.dependsOn_policy.1 hid with rfl | rfl
    · refine .inr ⟨?_, _, List.mem_cons_self, ?_, rfl⟩
      · simp [Resource.Leans, Resource.leaningKinds, Aws.policy, Resource.plain]
      · simp [Resource.Leans, Resource.leaningKinds, Aws.role, Resource.plain]
    · exact .inl ⟨e, he, rfl⟩

theorem Dataproc.leans_member (project : String) (s : Step) (access : Access) (r : Resource) :
    (Dataproc.member project s access r).Leans := by
  unfold Dataproc.member Resource.Leans
  dsimp only
  split <;> simp [Resource.leaningKinds, Resource.plain]

theorem Dataproc.layered (project region : String) : (Dataproc.provider project region).Layered := by
  intro s bs made h q hq id hid
  obtain ⟨compute, -, rfl⟩ := map_eq_ok_iff.1 h
  rcases List.mem_cons.1 hq with rfl | hq
  · exact absurd hid List.not_mem_nil
  · obtain ⟨e, he, rfl⟩ := List.mem_map.1 hq
    rcases Dataproc.dependsOn_member.1 hid with rfl | rfl
    · refine .inr ⟨Dataproc.leans_member _ _ _ _, _, List.mem_cons_self, ?_, rfl⟩
      simp [Resource.Leans, Resource.leaningKinds, Dataproc.account, Resource.plain]
    · exact .inl ⟨e, he, rfl⟩

theorem Kubernetes.layered (space image : String) : (Kubernetes.provider space image).Layered := by
  intro s bs made h q hq id hid
  have hnone : id ∉ KeySet.empty.toList := List.not_mem_nil
  obtain rfl := Except.ok.inj h
  simp only [List.mem_cons, List.not_mem_nil, or_false] at hq
  rcases hq with rfl | rfl | rfl
  · exact absurd hid hnone
  · unfold Kubernetes.role at hid
    rw [Resource.mem_dependAll] at hid
    obtain ⟨claim, hclaim, rfl⟩ := List.mem_map.1 (hid.resolve_right hnone)
    obtain ⟨e, he, rfl⟩ := List.mem_map.1 hclaim
    exact .inl ⟨e, he, rfl⟩
  · -- the binding depends on the account and on the role
    have hleans : (Kubernetes.roleBinding space s ((stored bs).map (·.2.2))).Leans := by
      simp [Resource.Leans, Resource.leaningKinds, Kubernetes.roleBinding, Kubernetes.inSpace,
        Resource.plain]
    unfold Kubernetes.roleBinding at hid
    rw [Resource.mem_depend, Resource.mem_depend] at hid
    rcases hid with rfl | rfl | hid
    · refine .inr ⟨hleans, _, List.mem_cons_self, ?_, rfl⟩
      simp [Resource.Leans, Resource.leaningKinds, Kubernetes.account, Kubernetes.inSpace, Resource.plain]
    · refine .inr ⟨hleans, _, List.mem_cons_of_mem _ List.mem_cons_self, ?_, rfl⟩
      simp [Resource.Leans, Resource.leaningKinds, Kubernetes.role, Kubernetes.inSpace, Resource.plain]
    · exact absurd hid hnone

theorem Machine.layered (root : String) : (Machine.provider root).Layered := by
  intro s bs made h q hq id hid
  obtain rfl := Except.ok.inj h
  obtain ⟨e, he, rfl⟩ := List.mem_map.1 hq
  obtain rfl := Machine.dependsOn_permission.1 hid
  exact .inl ⟨e, he, rfl⟩

/-- **The access resources of the four providers stand on two levels.** -/
theorem Provider.Standard.layered {p : Provider} (h : p.Standard) : p.Layered := by
  cases h with
  | aws region => exact Aws.layered region
  | dataproc project region => exact Dataproc.layered project region
  | kubernetes space image => exact Kubernetes.layered space image
  | machine root => exact Machine.layered root

/-! ### Nothing else is depended on -/

/-- Access resources that stand on two levels depend on storage that the step is bound to and on one
another. -/
theorem Provider.Layered.access {p : Provider} (h : p.Layered) (s : Step) (bs : List Binding) (made : Runner)
    (hmade : p.compute s bs = .ok made) (q : Resource) (hq : q ∈ made.access) (id : ResourceId)
    (hid : id ∈ q.dependsOn.toList) :
    (∃ e ∈ stored bs, e.2.2.id = id) ∨ ∃ q' ∈ made.access, q'.id = id := by
  refine (h s bs made hmade q hq id hid).imp_right ?_
  rintro ⟨-, q', hq', -, hid⟩
  exact ⟨q', hq', hid⟩

theorem Aws.selfContained (region : String) : (Aws.provider region).SelfContained where
  storage := by
    intro x spec r h
    obtain rfl := Except.ok.inj h
    unfold Aws.store
    cases spec.medium <;> simp [Resource.plain]
  access := (Aws.layered region).access

theorem Dataproc.selfContained (project region : String) :
    (Dataproc.provider project region).SelfContained where
  storage _ _ _ h := (Dataproc.of_store h).2.2
  access := (Dataproc.layered project region).access

theorem Kubernetes.selfContained (space image : String) :
    (Kubernetes.provider space image).SelfContained where
  storage _ _ _ h := (Kubernetes.of_claim h).2.2
  access := (Kubernetes.layered space image).access

theorem Machine.selfContained (root : String) : (Machine.provider root).SelfContained where
  storage := by
    intro x spec r h
    obtain rfl := Except.ok.inj h
    simp [Machine.directory, Resource.plain]
  access := (Machine.layered root).access

/-- **The four providers are self-contained.** -/
theorem Provider.Standard.selfContained {p : Provider} (h : p.Standard) : p.SelfContained := by
  cases h with
  | aws region => exact Aws.selfContained region
  | dataproc project region => exact Dataproc.selfContained project region
  | kubernetes space image => exact Kubernetes.selfContained space image
  | machine root => exact Machine.selfContained root

end Provenance
