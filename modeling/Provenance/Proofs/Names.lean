import Provenance.Proofs.Infra.Closed
import Provenance.Proofs.Infra.Slugs
import Provenance.Proofs.Plans

/-!
# What names look like

A plan holds nothing but what the provider has made, under the kind and the name that it was given.  So a
law on kinds and names that holds of all that a provider makes, for whatever it is asked, holds of all that
is in a plan (`Compilation.forall_of_ofGraph`).  Nothing is asked of the graph and of digests.

* `Provider.Standard.names`: what the four providers make is named by slugs, within the limits of the kinds.
  Each name is put together from a few pieces, and each piece has a bound.
* `Plan.wellNamed_of_ofGraph`: **every name in a plan is a slug within the limit of its kind**, whatever
  tasks and assets are called.
-/

namespace Provenance

open Naming

/-! ## Laws on kinds and names -/

/-- A law on kinds and names holds of all that a provider makes, for whatever it is asked. -/
structure Provider.Names (p : Provider) (Q : String → String → Prop) : Prop where
  storage : ∀ x spec r, p.storage x spec = .ok r → Q r.kind r.name
  compute : ∀ s bs made, p.compute s bs = .ok made → Q made.compute.kind made.compute.name
  access : ∀ s bs made, p.compute s bs = .ok made → ∀ r ∈ made.access, Q r.kind r.name
  schedule : ∀ s schedule runner r, p.schedule s schedule runner = .ok r → Q r.kind r.name
  monitoring : ∀ s monitoring runner rs, p.monitoring s monitoring runner = .ok rs →
    ∀ r ∈ rs, Q r.kind r.name

namespace Compilation

variable {p : Provider} {Q : String → String → Prop} {g : Graph} {c : Compilation} {s : Step}
  {r : Resource}

/-- The law holds of all that is in the plan. -/
def Lawful (Q : String → String → Prop) (c : Compilation) : Prop :=
  ∀ id r, c.plan.get? id = some r → Q r.kind r.name

/-- What a computation leaves behind obeys the law, whatever faults it may end with. -/
abbrev Obeys (Q : String → String → Prop) (x : Except Fault Compilation) : Prop :=
  Meets (fun _ => True) (Lawful Q) x

theorem Lawful.insert (hc : c.Lawful Q) (hr : Q r.kind r.name) : Obeys Q (c.insert r) := by
  refine ((ends_iff.1 (ends_insert c r)).weaken fun _ _ => trivial).mono ?_
  rintro _ ⟨plan, rfl, hself, hother⟩ id q hq
  dsimp only at hq
  by_cases hid : id = r.id
  · rw [hid, hself] at hq
    obtain rfl := Option.some.inj hq
    exact hr
  · exact hc id q ((hother id hid).symm.trans hq)

/-- Resources are put in one after the other. -/
theorem Lawful.insertAll {f : Resource → Resource} {rs : List Resource} (hc : c.Lawful Q)
    (hrs : ∀ r ∈ rs, Q (f r).kind (f r).name) :
    Obeys Q (rs.foldlM (fun c r => c.insert (f r)) c) :=
  Meets.foldlM (P := fun _ => Lawful Q) [] hc fun _ r hr _ hc => hc.insert (hrs r hr)

/-- The result of a call is known to be the result. -/
theorem meets_call {α : Type} (x : Except Fault α) : Meets (fun _ => True) (x = .ok ·) x := by
  cases x <;> first | rfl | trivial

variable (hp : p.Names Q)

include hp

theorem Lawful.ensureStore (hc : c.Lawful Q) (a : Address) : Obeys Q (ensureStore p .none g c a) := by
  unfold Compilation.ensureStore
  split
  · exact hc
  split
  · exact hc
  · rename_i asset spec _
    refine (meets_call _).bind fun made hmade => ?_
    have hname := hp.storage asset spec made hmade
    refine (hc.insert (r := made.madeFor a.text) hname).bind fun c₁ hc₁ => ?_
    exact hc₁

/-- What is made to run a step, and to give it access, obeys the law. -/
theorem Lawful.makeRunner (hc : c.Lawful Q) : Meets (fun _ => True) (fun made => made.2.Lawful Q ∧
    Q made.1.compute.kind made.1.compute.name ∧ ∀ r ∈ made.1.access, Q r.kind r.name)
      (makeRunner p .none g c s) := by
  unfold Compilation.makeRunner
  refine (meets_call _).bind fun made hmade => ?_
  have hcompute := hp.compute _ _ _ hmade
  have haccess := hp.access _ _ _ hmade
  exact ⟨hc, by simpa [Hooks.apply, Hooks.none] using hcompute, haccess⟩

theorem Lawful.addTrigger (hc : c.Lawful Q) (runner : ResourceId) : Obeys Q (addTrigger p s runner c) := by
  unfold Compilation.addTrigger
  split
  · exact hc
  · refine (meets_call _).bind fun trigger htrigger => ?_
    have hname := hp.schedule _ _ _ _ htrigger
    exact hc.insert hname

theorem Lawful.addAlerts (hc : c.Lawful Q) (runner : ResourceId) : Obeys Q (addAlerts p s runner c) := by
  unfold Compilation.addAlerts
  split
  · exact hc
  · refine (meets_call _).bind fun alerts halerts => ?_
    have hnames := hp.monitoring _ _ _ _ halerts
    exact hc.insertAll (f := fun r => (r.depend runner).madeFor s.origin) hnames

/-- **One step of a run** keeps to the law. -/
theorem Lawful.addStep (hc : c.Lawful Q) (s : Step) : Obeys Q (addStep p .none g c s) := by
  unfold Compilation.addStep
  have hstores : Obeys Q ((touched s).foldlM (fun c t => Compilation.ensureStore p .none g c t.1) c) :=
    Meets.foldlM (P := fun _ => Lawful Q) [] hc fun _ t _ c hc => hc.ensureStore hp t.1
  refine hstores.bind fun c₁ hc₁ => ?_
  refine (hc₁.makeRunner hp).bind fun made hmade => ?_
  obtain ⟨⟨compute, access⟩, c₂⟩ := made
  obtain ⟨hc₂, hcompute, haccess⟩ := hmade
  refine (hc₂.insert hcompute).bind fun c₃ hc₃ => ?_
  refine (hc₃.insertAll (f := (·.madeFor s.origin)) haccess).bind fun c₄ hc₄ => ?_
  refine (hc₄.addTrigger hp _).bind fun c₅ hc₅ => ?_
  refine (hc₅.addAlerts hp _).bind fun c₆ hc₆ => ?_
  exact hc₆

/-- **A law that holds of all that a provider makes holds of all that is in a plan.** -/
theorem forall_of_ofGraph {plan : Plan} (h : Plan.ofGraph p .none g = .ok plan) :
    ∀ r ∈ plan.toList, Q r.kind r.name := by
  obtain ⟨c, hc, rfl⟩ := map_eq_ok_iff.1 h
  have hstart : (start p).Lawful Q := fun id r hr => absurd hr (by simp [start, Plan.get?, Plan.empty])
  have hrun : Obeys Q (Compilation.ofGraph p .none g) := by
    unfold Compilation.ofGraph
    have hsteps : Obeys Q (g.steps.foldlM (addStep p .none g) (start p)) :=
      Meets.foldlM (P := fun _ => Lawful Q) [] hstart fun _ s _ c hc => hc.addStep hp s
    refine hsteps.bind fun c₁ hc₁ => ?_
    have hassets : Obeys Q ((g.assets.map (·.address)).foldlM (ensureStore p .none g) c₁) :=
      Meets.foldlM (P := fun _ => Lawful Q) [] hc₁ fun _ a _ c hc => hc.ensureStore hp a
    refine hassets.bind fun c₂ hc₂ => ?_
    refine (meets_call c₂.plan.checked).bind fun plan hplan => ?_
    rw [Plan.eq_of_checked hplan]
    exact hc₂
  rw [hc] at hrun
  intro r hr
  obtain ⟨e, he, rfl⟩ := List.mem_map.1 hr
  exact hrun e.1 e.2 (Index.find?_eq_some_iff.2 he)

end Compilation

/-! ## The names of the four providers -/

/-- How many characters the name of a resource may have, for the kinds that have a limit. -/
def Naming.limits : List (String × ℕ) :=
  [("aws_s3_bucket", 63), ("aws_glue_catalog_table", 63), ("aws_efs_file_system", 63),
    ("aws_lambda_function", 59), ("aws_iam_role", 64), ("aws_iam_role_policy", 128),
    ("google_storage_bucket", 63), ("google_bigquery_table", 63),
    ("google_dataproc_workflow_template", 50), ("google_dataproc_batch", 50),
    ("google_service_account", 30),
    ("kubernetes_persistent_volume_claim", 52), ("kubernetes_job", 52),
    ("kubernetes_service_account", 52), ("kubernetes_role", 52), ("kubernetes_role_binding", 52),
    ("kubernetes_cron_job", 52), ("kubernetes_manifest", 59),
    ("local_directory", 64), ("local_process", 64), ("local_log_alert", 64)]

/-- The name is a slug, and no longer than names of the kind may be. -/
def Naming.WellNamed (kind name : String) : Prop :=
  Slug name.toList ∧ ∀ room, limits.lookup kind = some room → name.length ≤ room

theorem Naming.Named.wellNamed {room : ℕ} {name : String} {r : Resource} (h : Named room name)
    (kind : String) (hkind : r.kind = kind) (hname : r.name = name)
    (hroom : ∀ limit ∈ limits.lookup kind, room ≤ limit) : WellNamed r.kind r.name := by
  rw [hkind, hname]
  exact ⟨h.slug, fun limit hlimit => h.length_le.trans (hroom limit hlimit)⟩

theorem Naming.named_word (access : Access) : Named 5 access.word := by
  cases access <;> exact (named_of_signs (by decide) (by decide)).mono (by decide)

namespace Aws

theorem named_functionName (s : Step) : Named 59 (functionName s) := named_step s (by decide)

/-- The name of a policy has room for a readable part after the function and the use. -/
theorem named_policy (region : String) (s : Step) (access : Access) (r : Resource) :
    Named 128 (policy region s access r).name := by
  have hlead := (named_functionName s).append (named_word access)
  have hsep : "-".utf8ByteSize = 1 := rfl
  have hsize : (functionName s ++ "-" ++ access.word ++ "-").utf8ByteSize =
      (functionName s ++ "-" ++ access.word).length + 1 := by
    rw [String.utf8ByteSize_append, hlead.utf8ByteSize_eq, hsep]
  have hlength := hlead.length_le
  have hrest : Named (min (policyRoom - (functionName s ++ "-" ++ access.word ++ "-").utf8ByteSize) room)
      (sanitize r.name (min (policyRoom -
        (functionName s ++ "-" ++ access.word ++ "-").utf8ByteSize) room) '-') := by
    refine named_sanitize _ _ ?_
    rw [hsize, policyRoom, room]
    omega
  refine (Named.append ⟨hlead.slug, le_rfl⟩ hrest).mono ?_
  rw [hsize, policyRoom, room]
  omega

theorem names (region : String) : (provider region).Names WellNamed where
  storage x spec r hr := by
    obtain rfl := Except.ok.inj hr
    have hname := named_storage x.address room (by decide)
    have hstore := (plays_store region x spec).2
    cases hmedium : spec.medium with
    | objectStore => exact hname.wellNamed "aws_s3_bucket" (by simp [store, hmedium]) hstore (by decide)
    | table => exact hname.wellNamed "aws_glue_catalog_table" (by simp [store, hmedium]) hstore (by decide)
    | volume => exact hname.wellNamed "aws_efs_file_system" (by simp [store, hmedium]) hstore (by decide)
  compute s bs made hmade := by
    obtain rfl := of_compute hmade
    exact (named_functionName s).wellNamed "aws_lambda_function" rfl rfl (by decide)
  access s bs made hmade r hr := by
    obtain rfl := of_compute hmade
    rcases List.mem_cons.1 hr with rfl | hr
    · exact ((named_functionName s).ending "role" (by decide) (by decide) (by decide)).wellNamed
        "aws_iam_role" rfl rfl (by decide)
    · obtain ⟨⟨access, x, q⟩, -, rfl⟩ := List.mem_map.1 hr
      exact (named_policy region s access q).wellNamed "aws_iam_role_policy" rfl rfl (by decide)
  schedule s schedule runner r hr := by
    dsimp only [provider, rule] at hr
    split at hr
    · cases hr
    · obtain rfl := Except.ok.inj hr
      have hname : Named 68 (functionName s ++ "-schedule") :=
        (named_functionName s).ending "schedule" (by decide) (by decide) (by decide)
      exact hname.wellNamed "aws_cloudwatch_event_rule" (by simp) (by simp) (by decide)
  monitoring s monitoring runner rs hrs r hr := by
    obtain ⟨ending, metric, statistic, threshold, rfl | rfl, rfl⟩ := of_alarms hrs hr
    · exact ((named_functionName s).ending "errors" (by decide) (by decide) (by decide)).wellNamed
        "aws_cloudwatch_metric_alarm" rfl rfl (by decide)
    · exact ((named_functionName s).ending "duration" (by decide) (by decide) (by decide)).wellNamed
        "aws_cloudwatch_metric_alarm" rfl rfl (by decide)

end Aws

namespace Dataproc

theorem named_jobName (s : Step) : Named 50 (jobName s) := named_step s (by decide)

theorem named_accountId (s : Step) : Named 11 (accountId s) :=
  (named_of_signs (s := "sa") (by decide) (by decide)).append
    (named_digest (identity s.output.address))

theorem wellNamed_member (project : String) (s : Step) (access : Access) (r : Resource) :
    WellNamed (member project s access r).kind (member project s access r).name := by
  have hname := ((named_jobName s).append (named_word access)).append
    (named_sanitize r.name room (by decide))
  unfold member
  dsimp only
  split
  · exact hname.wellNamed "google_bigquery_table_iam_member" rfl rfl (by decide)
  · exact hname.wellNamed "google_storage_bucket_iam_member" rfl rfl (by decide)

theorem names (project region : String) : (provider project region).Names WellNamed where
  storage x spec r hr := by
    have hname := named_storage x.address room (by decide)
    obtain ⟨hkind | hkind, hstore, -⟩ := of_store hr
    · exact hname.wellNamed "google_storage_bucket" hkind hstore (by decide)
    · exact hname.wellNamed "google_bigquery_table" hkind hstore (by decide)
  compute s bs made hmade := by
    obtain ⟨compute, hcompute, rfl⟩ := map_eq_ok_iff.1 hmade
    dsimp only [runner] at hcompute
    split at hcompute
    · obtain rfl := Except.ok.inj hcompute
      exact (named_jobName s).wellNamed "google_dataproc_workflow_template" rfl rfl (by decide)
    · obtain rfl := Except.ok.inj hcompute
      exact (named_jobName s).wellNamed "google_dataproc_batch" rfl rfl (by decide)
    · cases hcompute
  access s bs made hmade r hr := by
    obtain ⟨compute, -, rfl⟩ := map_eq_ok_iff.1 hmade
    rcases List.mem_cons.1 hr with rfl | hr
    · exact (named_accountId s).wellNamed "google_service_account" rfl rfl (by decide)
    · obtain ⟨⟨access, x, q⟩, -, rfl⟩ := List.mem_map.1 hr
      exact wellNamed_member project s access q
  schedule s schedule runner r hr := by
    obtain rfl := Except.ok.inj hr
    exact ((named_jobName s).ending "schedule" (by decide) (by decide) (by decide)).wellNamed
      "google_cloud_scheduler_job" rfl rfl (by decide)
  monitoring s monitoring runner rs hrs r hr := by
    obtain rfl := Except.ok.inj hrs
    unfold alerts at hr
    split at hr
    · exact absurd hr List.not_mem_nil
    · obtain rfl := List.mem_singleton.1 hr
      exact ((named_jobName s).ending "alerts" (by decide) (by decide) (by decide)).wellNamed
        "google_monitoring_alert_policy" rfl rfl (by decide)

end Dataproc

namespace Kubernetes

theorem named_jobName (s : Step) : Named 52 (jobName s) := named_step s (by decide)

theorem names (space image : String) : (provider space image).Names WellNamed where
  storage x spec r hr := by
    have hname := named_storage x.address room (by decide)
    obtain ⟨hkind, hclaim, -⟩ := of_claim hr
    exact hname.wellNamed "kubernetes_persistent_volume_claim" hkind hclaim (by decide)
  compute s bs made hmade := by
    obtain rfl := Except.ok.inj hmade
    exact (named_jobName s).wellNamed "kubernetes_job" rfl rfl (by decide)
  access s bs made hmade r hr := by
    obtain rfl := Except.ok.inj hmade
    simp only [List.mem_cons, List.not_mem_nil, or_false] at hr
    rcases hr with rfl | rfl | rfl
    · exact (named_jobName s).wellNamed "kubernetes_service_account" rfl rfl (by decide)
    · exact (named_jobName s).wellNamed "kubernetes_role" (by simp [role, inSpace])
        (by simp [role, inSpace]) (by decide)
    · exact (named_jobName s).wellNamed "kubernetes_role_binding" rfl rfl (by decide)
  schedule s schedule runner r hr := by
    obtain rfl := Except.ok.inj hr
    exact (named_jobName s).wellNamed "kubernetes_cron_job" (by simp [cronJob, inSpace])
      (by simp [cronJob, inSpace]) (by decide)
  monitoring s monitoring runner rs hrs r hr := by
    obtain rfl := Except.ok.inj hrs
    unfold alerts at hr
    split at hr
    · exact absurd hr List.not_mem_nil
    · obtain rfl := List.mem_singleton.1 hr
      exact ((named_jobName s).ending "alerts" (by decide) (by decide) (by decide)).wellNamed
        "kubernetes_manifest" rfl rfl (by decide)

end Kubernetes

namespace Machine

theorem named_stepName (s : Step) : Named 64 (stepName s) := named_step s (by decide)

theorem names (root : String) : (provider root).Names WellNamed where
  storage x spec r hr := by
    obtain rfl := Except.ok.inj hr
    have hname := named_storage x.address room (by decide)
    exact hname.wellNamed "local_directory" (by simp [directory]) (by simp [directory]) (by decide)
  compute s bs made hmade := by
    obtain rfl := Except.ok.inj hmade
    exact (named_stepName s).wellNamed "local_process" rfl rfl (by decide)
  access s bs made hmade r hr := by
    obtain rfl := Except.ok.inj hmade
    obtain ⟨⟨access, x, q⟩, -, rfl⟩ := List.mem_map.1 hr
    exact ((named_stepName s).append (named_sanitize q.name room (by decide))).wellNamed
      "local_file_permission" rfl rfl (by decide)
  schedule s schedule runner r hr := absurd hr (by simp [provider])
  monitoring s monitoring runner rs hrs r hr := by
    obtain rfl := Except.ok.inj hrs
    obtain rfl := List.mem_singleton.1 hr
    have hstep : Named 57 (step s (room - 7) '-') := named_step s (by decide)
    have hname : Named 64 (step s (room - 7) '-' ++ "-alerts") :=
      hstep.ending "alerts" (by decide) (by decide) (by decide)
    exact hname.wellNamed "local_log_alert" (by simp [alert]) (by simp [alert]) (by decide)

end Machine

theorem Provider.Standard.names {p : Provider} (h : p.Standard) : p.Names WellNamed := by
  cases h with
  | aws region => exact Aws.names region
  | dataproc project region => exact Dataproc.names project region
  | kubernetes space image => exact Kubernetes.names space image
  | machine root => exact Machine.names root

/-- **Every name in a plan is a slug within the limit of its kind**, whatever tasks and assets are called. -/
theorem Plan.wellNamed_of_ofGraph {p : Provider} (hp : p.Standard) {g : Graph} {plan : Plan}
    (h : Plan.ofGraph p .none g = .ok plan) : ∀ r ∈ plan.toList, WellNamed r.kind r.name :=
  Compilation.forall_of_ofGraph hp.names h

/-- In the plan of the daily table stand the policy that lets a function fill the table, the function and
the table; the name of each is a slug within its limit. -/
theorem Plan.wellNamed_of_ofGraph_daily : ∃ plan,
    Plan.ofGraph (Aws.provider "us-east-1") .none (Session.Late.tableGraph Session.Late.daily) = .ok plan ∧
    (∀ id ∈ ["aws_glue_catalog_table.report-fb57cdec", "aws_lambda_function.copy-report-98532fcb",
        "aws_iam_role_policy.copy-report-98532fcb-write-report-fb57cdec"],
      ∃ r ∈ plan.toList, r.id = id ∧ WellNamed r.kind r.name) ∧
    ∀ r ∈ plan.toList, WellNamed r.kind r.name := by
  have hmade : (Plan.ofGraph (Aws.provider "us-east-1") .none
      (Session.Late.tableGraph Session.Late.daily)).toOption.any (fun plan =>
        ["aws_glue_catalog_table.report-fb57cdec", "aws_lambda_function.copy-report-98532fcb",
          "aws_iam_role_policy.copy-report-98532fcb-write-report-fb57cdec"].all fun id =>
            plan.toList.any (·.id == id)) = true := by
    decide +kernel
  obtain ⟨plan, hplan, hfound⟩ := exists_ok_of_any hmade
  have hnamed := Plan.wellNamed_of_ofGraph (.aws "us-east-1") hplan
  refine ⟨plan, hplan, fun id hid => ?_, hnamed⟩
  obtain ⟨r, hr, heq⟩ := List.any_eq_true.1 (List.all_eq_true.1 hfound id hid)
  exact ⟨r, hr, by simpa using heq, hnamed r hr⟩

end Provenance
