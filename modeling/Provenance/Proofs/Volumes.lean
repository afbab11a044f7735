import Provenance.Proofs.Infra.Permits
import Provenance.Proofs.Plans

/-!
# What a job mounts

On Kubernetes a job mounts a claim for each input that is to be stored, parameter by parameter, and one for
its output.  A claim is told apart by the name of the asset and by the digest of its location, but the path
of its mount by the name only, so what lies elsewhere under the same name is mounted at the same path.

* `Kubernetes.stored_bindings_eq`: what is mounted, in order (`Graph.mounted`).
* `Kubernetes.exists_job`: the job of a step in a plan, and the volumes that can be read off it.
* `Kubernetes.claim_eq_iff`: claims of one name are of one address.
* `Session.volumes_of_graph`: **the claims are different exactly if the addresses are, and the paths exactly
  if the names are; so different claims lie at different paths, each once, exactly if no name is mounted
  twice.**
* `Session.exists_shared_mounts`: two inputs of one name at one path, and one input that is mounted twice.
-/

namespace Provenance

universe u

/-- Where two functions agree on what is the same, a list has no value of the one twice exactly if it has
none of the other twice. -/
theorem nodup_map_iff_of_mem {α β γ : Type*} {f : α → β} {k : α → γ} {l : List α}
    (h : ∀ x ∈ l, ∀ y ∈ l, f x = f y ↔ k x = k y) : (l.map f).Nodup ↔ (l.map k).Nodup := by
  unfold List.Nodup
  rw [List.pairwise_map, List.pairwise_map]
  exact List.Pairwise.iff_of_mem fun hx hy => not_congr (h _ hx _ hy)

/-- The assets that a step touches and that are to be stored, with the way in which it uses them: the inputs
in the order of the parameters, then the output. -/
def Graph.mounted (g : Graph) (s : Step) : List (Access × Asset) :=
  (Compilation.touched s).filterMap fun t =>
    ((g.asset? t.1).filter (·.storage.isSome)).map fun x => (t.2, x)

theorem Graph.mem_assets_of_mounted {g : Graph} {s : Step} {e : Access × Asset} (he : e ∈ g.mounted s) :
    e.2 ∈ g.assets ∧ e.2.storage.isSome := by
  obtain ⟨t, -, ht⟩ := List.mem_filterMap.1 he
  obtain ⟨x, hx, rfl⟩ := Option.map_eq_some_iff.1 ht
  obtain ⟨hx, hstorage⟩ := Option.filter_eq_some_iff.1 hx
  exact ⟨List.mem_of_find?_eq_some hx, hstorage⟩

namespace Kubernetes

/-! ## Volumes and claims -/

/-- A claim, where it is mounted, and whether it can be read only. -/
structure Volume where
  claim : String
  path : String
  readOnly : Bool
  deriving DecidableEq

/-- A volume, as a job lists it. -/
def volume (v : Json) : Volume :=
  ⟨(v.value "claim_name").word, (v.value "mount_path").word, (v.value "read_only").holds⟩

/-- The volumes of a job. -/
def volumes (r : Resource) : List Volume := (r.value "volumes").items.map volume

/-- The volume of an asset. -/
def volumeOf (e : Access × Asset) : Volume :=
  ⟨Naming.storage e.2.address room '-', "/data/" ++ e.2.address.name, e.1 == .read⟩

variable {space image : String} {g : Graph} {s : Step} {x : Asset} {r : Resource}

/-- A step becomes a job of its name, which mounts what the step uses. -/
theorem volumes_of_compute {bs : List Binding} {made : Runner}
    (h : (provider space image).compute s bs = .ok made) :
    made.compute.id = Resource.idOf "kubernetes_job" (jobName s) ∧
      volumes made.compute =
        (stored bs).map fun e => ⟨e.2.2.name, "/data/" ++ e.2.1.address.name, e.1 == .read⟩ := by
  obtain rfl := Except.ok.inj h
  refine ⟨rfl, ?_⟩
  simp [volumes, volume, job, inSpace, mount, Index.ofList, Index.find?_insert_of_ne]

/-- What a job depends on does not change what it mounts. -/
theorem volumes_linked {p : Provider} {made : Runner} :
    volumes (p.linked g s made) = volumes made.compute := by
  have hvalue : (p.linked g s made).value "volumes" = made.compute.value "volumes" := by
    unfold Provider.linked
    rw [Resource.value_dependAll, Resource.value_dependAll, Resource.value_dependAll]
    rfl
  unfold volumes
  rw [hvalue]

/-- A claim has the name of its storage. -/
theorem name_of_stored? (h : (provider space image).stored? x = some r) :
    r.name = Naming.storage x.address room '-' := by
  obtain ⟨spec, made, hmade, -, hname, -⟩ := Provider.exists_of_stored? h
  exact hname.trans (of_claim hmade).2.1

/-- What a step uses is what is mounted, if the provider can express all storage. -/
theorem stored_bindings_eq
    (h : ∀ x ∈ g.assets, x.storage.isSome → ∃ r, (provider space image).stored? x = some r) :
    (stored ((provider space image).bindings g s)).map (fun e => (e.1, e.2.1)) = g.mounted s := by
  unfold stored Provider.bindings Graph.mounted
  rw [List.filterMap_filterMap, List.map_filterMap]
  refine List.filterMap_congr fun t _ => ?_
  cases hx : g.asset? t.1 with
  | none => rfl
  | some x =>
    cases hstorage : x.storage with
    | none => simp [Provider.stored?, hstorage]
    | some spec =>
      obtain ⟨r, hr⟩ := h x (List.mem_of_find?_eq_some hx) (by rw [hstorage]; rfl)
      simp [hr, hstorage]

/-- **The job of a step mounts what the step touches and what is to be stored.** -/
theorem exists_job {plan : Plan} (hplan : plan.Renders (provider space image) g) (hs : s ∈ g.steps) :
    ∃ job, plan.get? (Resource.idOf "kubernetes_job" (jobName s)) = some job ∧
      volumes job = (g.mounted s).map volumeOf := by
  obtain ⟨made, hmade, hget, -⟩ := hplan.compute s hs
  obtain ⟨hid, hvolumes⟩ := volumes_of_compute (Provider.runner?_eq_some_iff.1 hmade)
  rw [hid] at hget
  refine ⟨_, hget, ?_⟩
  rw [volumes_linked, hvolumes, ← stored_bindings_eq fun x hx hstorage =>
    (hplan.storage x hx hstorage).imp fun _ hr => hr.1, List.map_map]
  refine List.map_congr_left fun e he => ?_
  obtain ⟨a, -, -, hr⟩ := Provider.mem_stored_bindings_iff.1 he
  rw [name_of_stored? hr]
  rfl

/-- **Claims of one name are of one address**, among those in a plan. -/
theorem claim_eq_iff {plan : Plan} (hplan : plan.Renders (provider space image) g)
    (hassets : (g.assets.map (·.address)).Nodup) (hdigest : Set.InjOn Naming.digest g.hashed)
    {e e' : Access × Asset} (he : e ∈ g.mounted s) (he' : e' ∈ g.mounted s) :
    (volumeOf e).claim = (volumeOf e').claim ↔ e.2.address = e'.2.address := by
  obtain ⟨hx, hstorage⟩ := Graph.mem_assets_of_mounted he
  obtain ⟨hy, hstorage'⟩ := Graph.mem_assets_of_mounted he'
  obtain ⟨r, hr, -⟩ := hplan.storage _ hx hstorage
  obtain ⟨q, hq, -⟩ := hplan.storage _ hy hstorage'
  constructor
  · intro hclaim
    have hname : r.name = q.name := by
      rw [name_of_stored? hr, name_of_stored? hq]
      exact hclaim
    have hid : (provider space image).storeId e.2 = (provider space image).storeId e'.2 := by
      rw [Provider.storeId_eq hr, Provider.storeId_eq hq, Resource.id, Resource.id, kind_of_stored? hr,
        kind_of_stored? hq, hname]
    have hinj := (hplan.bijOn_storeId (orderly space image) hassets hdigest).injOn
    rw [hinj ⟨hx, hstorage⟩ ⟨hy, hstorage'⟩ hid]
  · intro haddress
    unfold volumeOf
    dsimp only
    rw [haddress]

end Kubernetes

namespace Session

variable {α : Type u} {s : Session α} {terminals : List Asset}

/-- **What a job mounts.**  Take a graph that is built and that Kubernetes makes a plan of, and let digests
tell apart what is hashed for it.  The job of a step mounts what the step touches and what is to be stored,
an input once for every parameter that it is given to.  No claim is listed twice exactly if no address is
mounted twice, and no path exactly if no name is.  So different claims lie at different paths, and none is
listed twice, exactly if no name is mounted twice. -/
theorem volumes_of_graph (hs : s.Reachable) (hterminals : ∀ a ∈ terminals, s.Offers (.asset a)) {g : Graph}
    (hg : s.graph terminals = .ok g) (hdigest : Set.InjOn Naming.digest g.hashed) {space image : String}
    {plan : Plan} (hplan : Plan.ofGraph (Kubernetes.provider space image) Hooks.none g = .ok plan)
    {t : Step} (ht : t ∈ g.steps) :
    ∃ job, plan.get? (Resource.idOf "kubernetes_job" (Kubernetes.jobName t)) = some job ∧
      Kubernetes.volumes job = (g.mounted t).map Kubernetes.volumeOf ∧
      (((Kubernetes.volumes job).map (·.claim)).Nodup ↔ ((g.mounted t).map (·.2.address)).Nodup) ∧
      (((Kubernetes.volumes job).map (·.path)).Nodup ↔ ((g.mounted t).map (·.2.address.name)).Nodup) ∧
      (((Kubernetes.volumes job).map (·.claim)).Nodup ∧ ((Kubernetes.volumes job).map (·.path)).Nodup ↔
        ((g.mounted t).map (·.2.address.name)).Nodup) := by
  obtain ⟨-, hassets, hrender⟩ := renders_of_graph hs hterminals hg hdigest
  have hrenders := hrender (Kubernetes.orderly space image) hplan
  obtain ⟨job, hget, hvolumes⟩ := Kubernetes.exists_job hrenders ht
  have hclaims : ((g.mounted t).map fun e => (Kubernetes.volumeOf e).claim).Nodup ↔
      ((g.mounted t).map (·.2.address)).Nodup :=
    nodup_map_iff_of_mem fun _ he _ he' => Kubernetes.claim_eq_iff hrenders hassets hdigest he he'
  have hpaths : ((g.mounted t).map fun e => (Kubernetes.volumeOf e).path).Nodup ↔
      ((g.mounted t).map (·.2.address.name)).Nodup :=
    nodup_map_iff_of_mem fun _ _ _ _ => String.append_right_inj "/data/"
  have hnames : ((g.mounted t).map (·.2.address.name)).Nodup →
      ((g.mounted t).map (·.2.address)).Nodup := by
    intro h
    refine List.Nodup.of_map Address.name ?_
    rwa [List.map_map]
  refine ⟨job, hget, hvolumes, ?_⟩
  rw [hvolumes, List.map_map, List.map_map]
  exact ⟨hclaims, hpaths, ⟨fun h => hpaths.1 h.2, fun h => ⟨hclaims.2 (hnames h), hpaths.2 h⟩⟩⟩

/-! ## Two inputs of one name, and one input twice -/

namespace Mounts

/-- Data on a volume. -/
def north : Asset := ⟨⟨"sales", "/north"⟩, none, some (.plain .volume), none, 0⟩

/-- Data on another volume. -/
def south (name : String) : Asset := ⟨⟨name, "/south"⟩, none, some (.plain .volume), none, 1⟩

/-- What is made of both, on a third volume. -/
def report : Asset := ⟨⟨"report", "/report"⟩, none, some (.plain .volume), none, 2⟩

/-- A task of two parameters. -/
def merge : Task := .plain "merge" ["left", "right"] fun _ => ⟨.ok .empty, false, []⟩

/-- The data in the north, and some data beside it. -/
def sources (other : Asset) : List (String × Asset) := [("left", north), ("right", other)]

/-- The step that reads both. -/
def step (other : Asset) (t : Task) : Step := ⟨1, t, sources other, report, false⟩

/-- The session after some steps. -/
def after (name : String) (steps : List Step) (handle : Asset) : Session Unit :=
  .ofSteps 3 steps [("north", north), ("south", south name), ("report", handle)]

/-- The session after the step. -/
def session (name : String) (other : Asset) (t : Task) : Session Unit :=
  after name [step other t] (report.producedBy 1)

/-- The graph behind the output of a step that reads some inputs. -/
def graph (inputs : List Asset) (other : Asset) (t : Task) : Graph :=
  ⟨[report.address], inputs ++ [report], [step other t],
    inputs.map (fun x => (.asset x.address, .step 1)) ++ [(.step 1, .asset report.address)]⟩

variable {name : String} {other : Asset} {t : Task}

theorem reachable (ht : t.params = ["left", "right"]) (hother : other = north ∨ other = south name) :
    (session name other t).Reachable := by
  have hnorth : (ofSteps 1 [] [("north", north)]).Reachable :=
    .keep "north" (.declare "sales" "/north" "north" .start)
      (.store (a := { north with storage := none }) (.plain .volume) (.of_item? "north" rfl))
  have hsouth : (ofSteps 2 [] [("north", north), ("south", south name)]).Reachable :=
    .keep "south" (.declare name "/south" "south" hnorth)
      (.store (a := { south name with storage := none }) (.plain .volume) (.of_item? "south" rfl))
  have hreport : (after name [] report).Reachable :=
    .keep "report" (.declare "report" "/report" "report" hsouth)
      (.store (a := { report with storage := none }) (.plain .volume) (.of_item? "report" rfl))
  have hsources : ∀ i ∈ sources other, (after name [] report).Offers (.asset i.2) := by
    intro i hi
    rcases List.mem_pair.1 hi with rfl | rfl
    · exact .of_item? "north" rfl
    · rcases hother with rfl | rfl
      · exact .of_item? "north" rfl
      · exact .of_item? "south" rfl
  have hnames : ((sources other).map (·.1)).Nodup := by
    show ["left", "right"].Nodup
    decide
  have hjoin : Join.ofSources (sources other) = .ok ⟨sources other, hnames, Nat.le_refl 2⟩ := by
    cbv
  have hdraft : Join.transform ⟨sources other, hnames, Nat.le_refl 2⟩ t = .ok ⟨t, sources other⟩ := by
    unfold Join.transform
    rw [ht]
    cbv
  have hput : (after name [] report).put ⟨t, sources other⟩ report =
      .ok (report.producedBy 1, after name [step other t] report) := by
    rcases hother with rfl | rfl <;> cbv
  exact .put "report" hreport (.joined (.join hsources hjoin) hdraft) (.of_item? "report" rfl) hput

theorem offers : ∀ a ∈ [report.producedBy 1], (session name other t).Offers (.asset a) := by
  intro a ha
  obtain rfl := List.mem_singleton.1 ha
  exact .of_item? "report" rfl

/-- Two inputs of different names. -/
theorem graph_apart : (session "costs" (south "costs") t).graph [report.producedBy 1] =
    .ok (graph [north, south "costs"] (south "costs") t) := by
  cbv

/-- Two inputs of one name. -/
theorem graph_namesakes : (session "sales" (south "sales") t).graph [report.producedBy 1] =
    .ok (graph [north, south "sales"] (south "sales") t) := by
  cbv

/-- One input under two parameters. -/
theorem graph_twice : (session "sales" north t).graph [report.producedBy 1] =
    .ok (graph [north] north t) := by
  cbv

theorem digests : Naming.digest "/north" = "deeaabc8" ∧ Naming.digest "/south" = "a693e6fa" ∧
    Naming.digest "/report" = "c29372c1" ∧ Naming.digest "report|/report" = "f46a83da" := by
  decide +kernel

/-- What is hashed for the graphs. -/
theorem injOn_digest {inputs : List Asset}
    (hinputs : ∀ x ∈ inputs, x.address.location ∈ ["/north", "/south"]) :
    Set.InjOn Naming.digest (graph inputs other t).hashed := by
  have hnodup : (["/north", "/south", "/report", "report|/report"].map Naming.digest).Nodup := by
    obtain ⟨hnorth, hsouth, hreport, hstep⟩ := digests
    rw [List.map_cons, List.map_cons, List.map_cons, List.map_cons, hnorth, hsouth, hreport, hstep]
    decide
  have hhashed : ∀ text ∈ (graph inputs other t).hashed,
      text ∈ ["/north", "/south", "/report", "report|/report"] := by
    rintro text (⟨x, hx, -, rfl⟩ | ⟨s, hs, rfl⟩)
    · rcases List.mem_append.1 hx with hx | hx
      · exact List.mem_append_left ["/report", "report|/report"] (hinputs x hx)
      · obtain rfl := List.mem_singleton.1 hx
        exact .tail _ (.tail _ (.head _))
    · obtain rfl := List.mem_singleton.1 hs
      exact .tail _ (.tail _ (.tail _ (.head _)))
  exact fun a ha b hb => List.inj_on_of_nodup_map hnodup (hhashed a ha) (hhashed b hb)

/-- Kubernetes, with its usual namespace and image. -/
def cloud : Provider := Kubernetes.provider Kubernetes.usualSpace Kubernetes.usualImage

/-- A client builds the graph of the step, digests tell apart what is hashed for it, and in its plan the job
of the step mounts these volumes. -/
def Shows (name : String) (other : Asset) (inputs : List Asset) (volumes : List Kubernetes.Volume) : Prop :=
  (session name other merge).Reachable ∧
    (∀ a ∈ [report.producedBy 1], (session name other merge).Offers (.asset a)) ∧
    (session name other merge).graph [report.producedBy 1] = .ok (graph inputs other merge) ∧
    Set.InjOn Naming.digest (graph inputs other merge).hashed ∧
    ∃ plan job, Plan.ofGraph cloud Hooks.none (graph inputs other merge) = .ok plan ∧
      plan.get? (Resource.idOf "kubernetes_job" (Kubernetes.jobName (step other merge))) = some job ∧
      Kubernetes.volumes job = volumes

theorem shows_mounted {inputs : List Asset} (hother : other = north ∨ other = south name)
    (hinputs : ∀ x ∈ inputs, x.address.location ∈ ["/north", "/south"])
    (hg : (session name other merge).graph [report.producedBy 1] = .ok (graph inputs other merge))
    (haccepts : cloud.Accepts (graph inputs other merge)) :
    Shows name other inputs
      (((graph inputs other merge).mounted (step other merge)).map Kubernetes.volumeOf) := by
  have hp : cloud.Standard := .kubernetes _ _
  have hs : (session name other merge).Reachable := reachable rfl hother
  have hdigest : Set.InjOn Naming.digest (graph inputs other merge).hashed := injOn_digest hinputs
  obtain ⟨hsound, hassets, hrender⟩ := renders_of_graph hs offers hg hdigest
  obtain ⟨plan, hplan⟩ :=
    (Plan.exists_ofGraph_iff hp.orderly hsound hassets hdigest hp.selfContained).2 haccepts
  obtain ⟨job, hjob, hvolumes⟩ := Kubernetes.exists_job (hrender hp.orderly hplan)
    (show step other merge ∈ (graph inputs other merge).steps from .head _)
  exact ⟨hs, offers, hg, hdigest, plan, job, hplan, hjob, hvolumes⟩

/-- The volume of an asset whose digest is known. -/
theorem volumeOf_eq (access : Access) (x : Asset) {digest : String}
    (hdigest : Naming.digest x.address.location = digest) :
    Kubernetes.volumeOf (access, x) =
      ⟨Naming.sanitize x.address.name (Naming.budget Kubernetes.room) '-' ++ "-" ++ digest,
        "/data/" ++ x.address.name, access == .read⟩ := by
  subst hdigest
  rfl

theorem volumes_namesakes :
    ((graph [north, south "sales"] (south "sales") merge).mounted (step (south "sales") merge)).map
        Kubernetes.volumeOf =
      [⟨"sales-deeaabc8", "/data/sales", true⟩, ⟨"sales-a693e6fa", "/data/sales", true⟩,
        ⟨"report-c29372c1", "/data/report", false⟩] := by
  obtain ⟨hnorth, hsouth, hreport, -⟩ := digests
  have hmounted : (graph [north, south "sales"] (south "sales") merge).mounted (step (south "sales") merge) =
      [(.read, north), (.read, south "sales"), (.write, report)] := by
    rfl
  rw [hmounted, List.map_cons, List.map_cons, List.map_cons, volumeOf_eq .read north hnorth,
    volumeOf_eq .read (south "sales") hsouth, volumeOf_eq .write report hreport]
  decide

theorem volumes_twice :
    ((graph [north] north merge).mounted (step north merge)).map Kubernetes.volumeOf =
      [⟨"sales-deeaabc8", "/data/sales", true⟩, ⟨"sales-deeaabc8", "/data/sales", true⟩,
        ⟨"report-c29372c1", "/data/report", false⟩] := by
  obtain ⟨hnorth, -, hreport, -⟩ := digests
  have hmounted : (graph [north] north merge).mounted (step north merge) =
      [(.read, north), (.read, north), (.write, report)] := by
    rfl
  rw [hmounted, List.map_cons, List.map_cons, List.map_cons, volumeOf_eq .read north hnorth,
    volumeOf_eq .write report hreport]
  decide

end Mounts

/-- Two inputs of different names lie at paths of their own. -/
theorem volumes_of_graph_apart : ∃ plan job,
    Plan.ofGraph Mounts.cloud Hooks.none
      (Mounts.graph [Mounts.north, Mounts.south "costs"] (Mounts.south "costs") Mounts.merge) = .ok plan ∧
    plan.get? (Resource.idOf "kubernetes_job" (Kubernetes.jobName
      (Mounts.step (Mounts.south "costs") Mounts.merge))) = some job ∧
    ((Kubernetes.volumes job).map (·.claim)).Nodup ∧ ((Kubernetes.volumes job).map (·.path)).Nodup := by
  obtain ⟨hs, hterminals, hg, hdigest, plan, -, hplan, -⟩ :=
    Mounts.shows_mounted (.inr rfl) (by decide) Mounts.graph_apart (by decide)
  obtain ⟨job, hjob, -, -, -, hboth⟩ := volumes_of_graph hs hterminals hg hdigest hplan (.head _)
  obtain ⟨hclaims, hpaths⟩ := hboth.2 (by decide)
  exact ⟨plan, job, hplan, hjob, hclaims, hpaths⟩

/-- **Inputs can share a path.**  In one plan a job mounts two claims at the path `/data/sales`, those of two
inputs of that name; in another one it mounts a claim twice, that of an input under two parameters. -/
theorem exists_shared_mounts :
    Mounts.Shows "sales" (Mounts.south "sales") [Mounts.north, Mounts.south "sales"]
      [⟨"sales-deeaabc8", "/data/sales", true⟩, ⟨"sales-a693e6fa", "/data/sales", true⟩,
        ⟨"report-c29372c1", "/data/report", false⟩] ∧
    Mounts.Shows "sales" Mounts.north [Mounts.north]
      [⟨"sales-deeaabc8", "/data/sales", true⟩, ⟨"sales-deeaabc8", "/data/sales", true⟩,
        ⟨"report-c29372c1", "/data/report", false⟩] := by
  have htwo := Mounts.shows_mounted (.inr rfl) (by decide) Mounts.graph_namesakes (by decide +kernel)
  have hone := Mounts.shows_mounted (.inl rfl) (by decide) Mounts.graph_twice (by decide)
  rw [Mounts.volumes_namesakes] at htwo
  rw [Mounts.volumes_twice] at hone
  exact ⟨htwo, hone⟩

end Session

end Provenance
