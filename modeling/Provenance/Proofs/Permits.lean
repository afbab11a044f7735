import Provenance.Proofs.Infra.Permits
import Provenance.Proofs.Recompiled

/-!
# What steps are permitted

Whatever is permitted in a plan was made for a step, and is on storage that this step touches; if it may be
written, it is the storage of the output of the step (`Plan.Confines`).  For in a plan no two storages are
meant by the same texts.

But a step is found by its origin, and its permits by their names, and neither tells it apart.  If two steps
have one origin and a resource each of one name, the plan keeps the one that was put in last: then what runs
the other step depends on a permit that was not made for it.

* `Session.permits_of_graph`: **every permit in a plan is confined to the step it was made for.**  That is
  the step under whose name or origin it is found, if the steps are apart.
* `Session.exists_borrowed_permit`: a step with a permit to write to the output of another one.
-/

namespace Provenance

universe u

namespace Provider

variable {p : Provider} {i : Idiom} {g : Graph} {s : Step} {r : Resource} {permit : Permit}

/-- The provider makes the resource for a step. -/
def MakesFor (p : Provider) (g : Graph) (s : Step) (r : Resource) : Prop :=
  ∃ rs, p.pieces? g s = some rs ∧ r ∈ rs

theorem MakesFor.origin_eq (hr : p.MakesFor g s r) : r.origin = s.origin := by
  obtain ⟨rs, hrs, hmem⟩ := hr
  exact origin_of_mem_pieces hrs hmem

/-- Where steps are apart, what has one name and one origin is made for one step. -/
theorem MakesFor.step_eq {t : Step} {q : Resource} (hr : p.MakesFor g s r) (hapart : p.Apart g)
    (hs : s ∈ g.steps) (ht : t ∈ g.steps) (hq : p.MakesFor g t q) (hid : q.id = r.id)
    (horigin : q.origin = r.origin) : t = s := by
  rw [hq.origin_eq, hr.origin_eq] at horigin
  obtain ⟨rs, hrs, hr⟩ := hr
  obtain ⟨qs, hqs, hq⟩ := hq
  exact hapart s hs t ht rs qs hrs hqs r hr q hq hid horigin

theorem properties_linked {made : Runner} : (p.linked g s made).properties = made.compute.properties := by
  simp [linked, Resource.dependAll_eq, Resource.madeFor]

/-- What is made for a step permits it to use storage that it is bound to. -/
theorem MakesFor.exists_bound (hr : p.MakesFor g s r) (hp : p.Orderly) (hi : p.Permits i)
    (hpermit : permit ∈ i.permits r) : ∃ e ∈ stored (p.bindings g s),
      permit.target = i.target e.2.2 ∧ (permit.writes = true → e.1 = .write) := by
  obtain ⟨rs, hrs, hr⟩ := hr
  obtain ⟨made, triggers, alerts, hmade, htriggers, halerts, rfl⟩ := pieces?_eq_some_iff.1 hrs
  have hbound := hi.bound _ _ _ (runner?_eq_some_iff.1 hmade)
  have hplays := hi.plays r (List.ne_nil_of_mem hpermit)
  rw [List.mem_cons, List.mem_append, List.mem_append] at hr
  rcases hr with rfl | hr | hr | hr
  · rw [hi.congr made.compute _ kind_linked properties_linked] at hpermit
    exact hbound _ List.mem_cons_self _ hpermit
  · obtain ⟨q, hq, rfl⟩ := List.mem_map.1 hr
    rw [hi.congr q (q.madeFor s.origin) rfl rfl] at hpermit
    exact hbound _ (List.mem_cons_of_mem _ hq) _ hpermit
  · obtain ⟨schedule, t, -, ht, rfl⟩ := starts_of_mem_triggers? htriggers hr
    have htrigger : ((t.depend made.compute.id).madeFor s.origin).Plays .trigger :=
      (hp.schedule _ _ _ _ ht).1
    rcases hplays with hplays | hplays <;> exact absurd (htrigger.unique hplays) (by decide)
  · obtain ⟨monitoring, ts, -, hts, t, ht, rfl⟩ := watches_of_mem_alerts? halerts hr
    have halert : ((t.depend made.compute.id).madeFor s.origin).Plays .alert :=
      (hp.monitoring _ _ _ _ hts _ ht).1
    rcases hplays with hplays | hplays <;> exact absurd (halert.unique hplays) (by decide)

end Provider

namespace Plan

variable {p : Provider} {i : Idiom} {g : Graph} {plan : Plan} {s : Step} {r : Resource} {permit : Permit}
  {id : ResourceId}

/-- The permit is on storage in the plan, of an asset that the step touches; and of the output of the step,
if it may be written. -/
structure Confines (plan : Plan) (p : Provider) (i : Idiom) (g : Graph) (s : Step) (permit : Permit) :
    Prop where
  held : ∃ x ∈ g.assets, ∃ r, p.stored? x = some r ∧ plan.get? r.id = some r ∧ i.target r = permit.target
  touched : ∀ x ∈ g.assets, ∀ r, p.stored? x = some r → i.target r = permit.target →
    s.ReadsFrom x.address ∨ s.output.address = x.address
  written : permit.writes = true → ∀ x ∈ g.assets, ∀ r, p.stored? x = some r →
    i.target r = permit.target → s.output.address = x.address

variable (hp : p.Orderly) (hi : p.Permits i) (hassets : (g.assets.map (·.address)).Nodup)
  (hdigest : Set.InjOn Naming.digest g.hashed)

include hp hi hassets hdigest

/-- The texts by which a storage is meant tell its asset. -/
theorem Renders.asset_eq_of_target (h : plan.Renders p g) {x y : Asset} {q : Resource} (hx : x ∈ g.assets)
    (hr : p.stored? x = some r) (hy : y ∈ g.assets) (hq : p.stored? y = some q)
    (htarget : i.target q = i.target r) : y = x := by
  have hget := h.get?_of_stored hy hq
  rw [hi.target x y r q hr hq htarget, h.get?_of_stored hx hr] at hget
  obtain rfl := Option.some.inj hget
  exact Provider.asset_eq_of_stored hp.legible hassets hdigest hx hr hy hq rfl rfl

/-- **What is made for a step is confined to it.** -/
theorem Renders.confines (h : plan.Renders p g) (hr : p.MakesFor g s r) (hpermit : permit ∈ i.permits r) :
    plan.Confines p i g s permit := by
  obtain ⟨⟨access, x, q⟩, he, htarget, hwrite⟩ := hr.exists_bound hp hi hpermit
  obtain ⟨a, htouched, hfound, hq⟩ := Provider.mem_stored_bindings_iff.1 he
  obtain ⟨hx, rfl⟩ := (Provider.asset?_eq_some_iff hassets).1 hfound
  have hasset : ∀ y ∈ g.assets, ∀ k, p.stored? y = some k → i.target k = permit.target → y = x :=
    fun y hy k hk hmeant => h.asset_eq_of_target hp hi hassets hdigest hx hq hy hk (hmeant.trans htarget)
  refine ⟨⟨x, hx, q, hq, h.get?_of_stored hx hq, htarget.symm⟩, ?_, ?_⟩
  · intro y hy k hk hmeant
    obtain rfl := hasset y hy k hk hmeant
    exact Provider.mem_touched_iff.1 ⟨_, htouched, rfl⟩
  · intro hwrites y hy k hk hmeant
    obtain rfl := hasset y hy k hk hmeant
    rw [show access = .write from hwrite hwrites] at htouched
    exact (Provider.eq_output_of_mem_touched htouched).symm

variable (hg : g.Sound)

include hg

/-- What permits something was made for a step. -/
theorem exists_makesFor (hplan : Plan.ofGraph p Hooks.none g = .ok plan) (hr : plan.get? id = some r)
    (hpermit : permit ∈ i.permits r) : ∃ s ∈ g.steps, p.MakesFor g s r := by
  rcases (get?_eq_some_iff hp hg hassets hdigest hplan).1 hr with ⟨-, a, hstored⟩ | hlast
  · obtain ⟨x, hx, -, hstored⟩ := Provider.exists_of_storedAt? hstored
    have hstorage := (Provider.Gives.storage hx hstored).plays hp
    rcases hi.plays r (List.ne_nil_of_mem hpermit) with hplays | hplays <;>
      exact absurd (hstorage.unique hplays) (by decide)
  · obtain ⟨s, hs, rs, hrs, hmem, -⟩ := Provider.exists_of_lastPiece? hlast
    exact ⟨s, hs, rs, hrs, hmem⟩

end Plan

namespace Session

variable {α : Type u} {s : Session α} {terminals : List Asset}

/-- **Which permits a plan holds.**  Every permit is held by a resource that was made for a step, and is
confined to this step.  So it is to the step under the name of whose resources it is found, if the steps are
apart, as they always are on Kubernetes; and to the step under whose origin it is found, if the steps differ
in their origins.  Digests have to tell apart what is hashed for the graph. -/
theorem permits_of_graph (hs : s.Reachable) (hterminals : ∀ a ∈ terminals, s.Offers (.asset a))
    {g : Graph} (hg : s.graph terminals = .ok g) {p : Provider} {i : Idiom} (hp : p.Speaks i)
    (hdigest : Set.InjOn Naming.digest g.hashed) {plan : Plan}
    (hplan : Plan.ofGraph p Hooks.none g = .ok plan) :
    (∀ id r, plan.get? id = some r → ∀ permit ∈ i.permits r, ∃ t ∈ g.steps, t.origin = r.origin ∧
      p.MakesFor g t r ∧ plan.Confines p i g t permit) ∧
    (p.Apart g ∨ (∃ space image, p = Kubernetes.provider space image) → ∀ t ∈ g.steps,
      ∀ q, p.MakesFor g t q → ∀ r, plan.get? q.id = some r → ∀ permit ∈ i.permits r,
        plan.Confines p i g t permit) ∧
    (Set.InjOn Step.origin {t | t ∈ g.steps} → ∀ t ∈ g.steps, ∀ id r, plan.get? id = some r →
      r.origin = t.origin → ∀ permit ∈ i.permits r, plan.Confines p i g t permit) := by
  obtain ⟨hgsound, hassets, hrender⟩ := renders_of_graph hs hterminals hg hdigest
  have hp' := hp.standard.orderly
  have hrenders := hrender hp' hplan
  have haccepts := (Plan.exists_ofGraph_iff hp' hgsound hassets hdigest hp.standard.selfContained).1
    ⟨plan, hplan⟩
  have hmade : ∀ id r, plan.get? id = some r → ∀ permit ∈ i.permits r, ∃ t ∈ g.steps,
      t.origin = r.origin ∧ p.MakesFor g t r ∧ plan.Confines p i g t permit := by
    intro id r hr permit hpermit
    obtain ⟨t, ht, hmakes⟩ := Plan.exists_makesFor hp' hp.permits hassets hdigest hgsound hplan hr hpermit
    exact ⟨t, ht, hmakes.origin_eq.symm, hmakes,
      hrenders.confines hp' hp.permits hassets hdigest hmakes hpermit⟩
  refine ⟨hmade, fun hapart t ht q hq r hr permit hpermit => ?_,
    fun horigin t ht id r hr hsame permit hpermit => ?_⟩
  · have hapart : p.Apart g := by
      rcases hapart with hapart | ⟨space, image, rfl⟩
      · exact hapart
      · exact Kubernetes.apart hgsound hdigest
    obtain ⟨u, hu, -, hru, hconfines⟩ := hmade q.id r hr permit hpermit
    have hid : r.id = q.id := (hrenders.gives _ _ hr).1
    have horigin := haccepts.names q r (.inr ⟨t, ht, hq⟩) (.inr ⟨u, hu, hru⟩) hid
    obtain rfl := hq.step_eq hapart ht hu hru hid horigin
    exact hconfines
  · obtain ⟨u, hu, hru, -, hconfines⟩ := hmade id r hr permit hpermit
    obtain rfl := horigin hu ht (hru.trans hsame)
    exact hconfines

/-! ## A permit that was made for another step -/

namespace Borrowed

open Crossed (task stepOf longName machine directory permission)

/-- What both steps read. -/
def source : Asset := ⟨⟨"a 35a88db1 a", "b@c"⟩, none, some (.plain .objectStore), none, 0⟩

/-- What one step makes of it, which is not to be stored. -/
def leftOut : Asset := ⟨⟨"a@b", "c"⟩, none, none, none, 1⟩

/-- What the other step makes of it.  The text of its address is the same. -/
def rightOut : Asset := ⟨⟨"a", "b@c"⟩, none, some (.plain .objectStore), none, 2⟩

/-- The step that comes first. -/
def leftStep (t : Task) : Step := stepOf t 1 source leftOut

/-- The step that comes last. -/
def rightStep (u : Task) : Step := stepOf u 2 source rightOut

/-- The session after some steps, with the handles of the two outputs. -/
def after (steps : List Step) (l r : Asset) : Session Unit :=
  .ofSteps 3 steps [("source", source), ("left", l), ("right", r)]

/-- The session after both steps. -/
def session (t u : Task) : Session Unit :=
  after [rightStep u, leftStep t] (leftOut.producedBy 1) (rightOut.producedBy 2)

/-- The handles that the graph is built from. -/
def outputs : List Asset := [leftOut.producedBy 1, rightOut.producedBy 2]

/-- The graph behind both outputs. -/
def graph (t u : Task) : Graph :=
  ⟨[leftOut.address, rightOut.address], [source, leftOut, rightOut], [leftStep t, rightStep u],
    (leftStep t).links ++ (rightStep u).links⟩

variable {t u : Task}

theorem reachable (ht : t.params = ["src"]) (hu : u.params = ["src"]) : (session t u).Reachable := by
  have hsource : (ofSteps 1 [] [("source", source)]).Reachable :=
    .keep "source" (.declare "a 35a88db1 a" "b@c" "source" .start)
      (.store (a := { source with storage := none }) (.plain .objectStore) (.of_item? "source" rfl))
  have hleft : (ofSteps 2 [] [("source", source), ("left", leftOut)]).Reachable :=
    .declare "a@b" "c" "left" hsource
  have hright : (after [] leftOut rightOut).Reachable :=
    .keep "right" (.declare "a" "b@c" "right" hleft)
      (.store (a := { rightOut with storage := none }) (.plain .objectStore) (.of_item? "right" rfl))
  have hput : (after [] leftOut rightOut).put ⟨t, [("src", source)]⟩ leftOut =
      .ok (leftOut.producedBy 1, after [leftStep t] leftOut rightOut) := by
    cbv
  have hput' : (after [leftStep t] (leftOut.producedBy 1) rightOut).put ⟨u, [("src", source)]⟩ rightOut =
      .ok (rightOut.producedBy 2, after [rightStep u, leftStep t] (leftOut.producedBy 1) rightOut) := by
    cbv
  have hone : (after [leftStep t] (leftOut.producedBy 1) rightOut).Reachable :=
    .put "left" hright (.single (.of_item? "source" rfl) (transform_of_params ht))
      (.of_item? "left" rfl) hput
  exact .put "right" hone (.single (.of_item? "source" rfl) (transform_of_params hu))
    (.of_item? "right" rfl) hput'

theorem offers_outputs : ∀ a ∈ outputs, (session t u).Offers (.asset a) := by
  intro a ha
  rcases List.mem_pair.1 ha with rfl | rfl
  · exact .of_item? "left" rfl
  · exact .of_item? "right" rfl

theorem graph_eq : (session t u).graph outputs = .ok (graph t u) := by
  cbv

theorem injOn_digest : Set.InjOn Naming.digest (graph t u).hashed := by
  have hplace : Naming.digest "b@c" = "d69bcc17" := by
    decide +kernel
  have hnodup : (["b@c", Naming.identity leftOut.address, Naming.identity rightOut.address].map
      Naming.digest).Nodup := by
    obtain ⟨-, hleft, hright⟩ := Crossed.digests
    have hleft : Naming.digest (Naming.identity leftOut.address) = "f145fb23" := hleft
    have hright : Naming.digest (Naming.identity rightOut.address) = "35a88db1" := hright
    rw [List.map_cons, List.map_cons, List.map_cons, List.map_nil, hplace, hleft, hright]
    decide
  have hhashed : ∀ text ∈ (graph t u).hashed,
      text ∈ ["b@c", Naming.identity leftOut.address, Naming.identity rightOut.address] := by
    rintro text (⟨x, hx, hstorage, rfl⟩ | ⟨s, hs, rfl⟩)
    · simp only [graph, List.mem_cons, List.not_mem_nil, or_false] at hx
      rcases hx with rfl | rfl | rfl
      · exact .head _
      · exact absurd hstorage (by decide)
      · exact .head _
    · rcases List.mem_pair.1 hs with rfl | rfl
      · exact .tail _ (.head _)
      · exact .tail _ (.tail _ (.head _))
  exact fun a ha b hb => List.inj_on_of_nodup_map hnodup (hhashed a ha) (hhashed b hb)

/-- The permission of the last step to write its output. -/
def written (u : Task) : Resource :=
  (Machine.permission (rightStep u) .write (directory rightOut)).madeFor (rightStep u).origin

theorem permits_written : Machine.idiom.permits (written u) =
    [⟨true, Machine.idiom.target (directory rightOut)⟩] := by
  have hsame : Machine.idiom.permits (written u) = Machine.idiom.permits
      (Machine.permission (rightStep u) .write (directory rightOut)) :=
    (Machine.permits Crossed.root).congr _ _ (Resource.kind_madeFor _ _) rfl
  rw [hsame, Machine.permits_permission, decide_eq_true rfl]

theorem mem_permits_written : ⟨true, Machine.idiom.target (directory rightOut)⟩ ∈
    Machine.idiom.permits (written u) := by
  rw [permits_written]
  exact List.mem_cons_self

/-- What runs the last step, and its permissions: the one to write comes last. -/
theorem pieces?_rightStep (name : String) : ∃ process,
    machine.pieces? (graph t (task name)) (rightStep (task name)) =
      some ([process, permission (rightStep (task name)) source] ++ [written (task name)]) := by
  have hmade : machine.runner? (graph t (task name)) (rightStep (task name)) =
      some ⟨Machine.process (rightStep (task name)),
        [Machine.permission (rightStep (task name)) .read (directory source),
          Machine.permission (rightStep (task name)) .write (directory rightOut)]⟩ := by
    rfl
  exact ⟨_, Provider.pieces?_eq_some_iff.2 ⟨_, [], [], hmade, rfl, rfl, rfl⟩⟩

/-- What runs the first step, and its permission. -/
theorem runner?_leftStep (name : String) : machine.runner? (graph (task name) u) (leftStep (task name)) =
    some ⟨Machine.process (leftStep (task name)),
      [Machine.permission (leftStep (task name)) .read (directory source)]⟩ := by
  rfl

/-- The plan shows the permission of the last step to write. -/
theorem get?_written {name : String} {plan : Plan} (ht : t.params = ["src"])
    (hplan : Plan.ofGraph machine Hooks.none (graph t (task name)) = .ok plan) :
    plan.get? (written (task name)).id = some (written (task name)) := by
  obtain ⟨hg, hassets⟩ := addresses_of_graph (reachable ht rfl) offers_outputs (graph_eq (u := task name))
  obtain ⟨_, hpieces⟩ := pieces?_rightStep (t := t) name
  exact (Plan.get?_eq_some_iff (Machine.orderly _) hg hassets injOn_digest hplan).2
    (.inr (@Provider.lastPiece?_append_singleton _ _ _ _ [leftStep t] _ hpieces))

theorem exists_plan {name : String} (haccepts : machine.Accepts (graph (task "p") (task name))) :
    ∃ plan, Plan.ofGraph machine Hooks.none (graph (task "p") (task name)) = .ok plan := by
  have hp : machine.Standard := .machine _
  obtain ⟨hg, hassets⟩ := addresses_of_graph (reachable rfl rfl) offers_outputs
    (graph_eq (t := task "p") (u := task name))
  exact (Plan.exists_ofGraph_iff hp.orderly hg hassets injOn_digest hp.selfContained).2 haccepts

theorem accepts : machine.Accepts (graph (task "p") (task "q")) := by
  decide +kernel

theorem accepts_longName : machine.Accepts (graph (task "p") (task longName)) := by
  decide +kernel

/-- **The last step writes by a permission of the name of the one by which the first step reads.** -/
theorem id_written : (written (task longName)).id = (permission (leftStep (task "p")) source).id := by
  have hroom : max (Naming.budget Machine.room) 4 + (Naming.digestLength + 1) ≤ Machine.room := by
    decide
  have hid : ∀ s x, (permission s x).id = Resource.idOf "local_file_permission"
      (Machine.stepName s ++ "-" ++ Naming.sanitize (directory x).name Machine.room '-') :=
    fun s x => rfl
  have hleft : Machine.stepName (leftStep (task "p")) = "p-a-b-f145fb23" := Crossed.stepName_leftStep 1
  have hright : Machine.stepName (rightStep (task longName)) = "p-a-b-f145fb23-a-35a88db1" :=
    Crossed.stepName_rightStep 2
  have hname : ∀ x, Naming.sanitize (directory x).name Machine.room '-' =
      Naming.storage x.address Machine.room '-' := fun x => Naming.sanitize_storage x.address hroom
  have hwritten : (written (task longName)).id = (permission (rightStep (task longName)) rightOut).id := rfl
  rw [hwritten, hid, hid, hleft, hright, hname, hname]
  unfold Naming.storage
  have hsource : Naming.sanitize source.address.name (Naming.budget Machine.room) '-' = "a-35a88db1-a" := by
    decide
  have hrightOut : Naming.sanitize rightOut.address.name (Naming.budget Machine.room) '-' = "a" := by
    decide
  have hlead : "p-a-b-f145fb23-a-35a88db1" ++ "-" ++ "a" ++ '-'.toString =
      "p-a-b-f145fb23" ++ "-" ++ "a-35a88db1-a" ++ '-'.toString := by
    decide
  -- the digest of the common location stays closed
  rw [hsource, hrightOut]
  simp only [← String.append_assoc]
  rw [hlead]
  rfl

/-- Nothing that is put in for one step has the name of anything that is put in for the other one. -/
theorem apart : machine.Apart (graph (task "p") (task "q")) :=
  Provider.apart_of_pair rfl (by decide)

end Borrowed

/-- A step is permitted to write its output, since no other step has anything of that name. -/
theorem permits_of_graph_apart : ∃ plan,
    Plan.ofGraph Crossed.machine Hooks.none (Borrowed.graph (Crossed.task "p") (Crossed.task "q")) =
      .ok plan ∧
    ∃ r, plan.get? r.id = some r ∧ ∃ permit ∈ Machine.idiom.permits r, permit.writes = true ∧
      plan.Confines Crossed.machine Machine.idiom
        (Borrowed.graph (Crossed.task "p") (Crossed.task "q")) (Borrowed.rightStep (Crossed.task "q"))
        permit := by
  obtain ⟨plan, hplan⟩ := Borrowed.exists_plan Borrowed.accepts
  obtain ⟨-, hapart, -⟩ := permits_of_graph (Borrowed.reachable rfl rfl) Borrowed.offers_outputs
    Borrowed.graph_eq (.machine Crossed.root) Borrowed.injOn_digest hplan
  obtain ⟨_, hpieces⟩ := Borrowed.pieces?_rightStep (t := Crossed.task "p") "q"
  have hmakes : Crossed.machine.MakesFor (Borrowed.graph (Crossed.task "p") (Crossed.task "q"))
      (Borrowed.rightStep (Crossed.task "q")) (Borrowed.written (Crossed.task "q")) :=
    ⟨_, hpieces, List.mem_append_right _ List.mem_cons_self⟩
  have hheld := Borrowed.get?_written rfl hplan
  exact ⟨plan, hplan, _, hheld, _, Borrowed.mem_permits_written, rfl,
    hapart (.inl Borrowed.apart) _ (.tail _ (.head _)) _ hmakes _ hheld _ Borrowed.mem_permits_written⟩

/-- **A step can get a permit of another step.**  Under the name of the permission of a step to read its
input, and with its origin, the plan has a permission to write to a directory that the step does not touch;
and what runs the step depends on it. -/
theorem exists_borrowed_permit :
    let t := Crossed.task "p"
    let u := Crossed.task Crossed.longName
    let g := Borrowed.graph t u
    (Borrowed.session t u).Reachable ∧ (∀ a ∈ Borrowed.outputs, (Borrowed.session t u).Offers (.asset a)) ∧
      (Borrowed.session t u).graph Borrowed.outputs = .ok g ∧ Set.InjOn Naming.digest g.hashed ∧
      ∃ plan, Plan.ofGraph Crossed.machine Hooks.none g = .ok plan ∧
        ∃ s ∈ g.steps, ∃ q, Crossed.machine.MakesFor g s q ∧ ∃ r, plan.get? q.id = some r ∧
          r.origin = s.origin ∧
          (∃ runner, plan.get? (Crossed.machine.runnerId g s) = some runner ∧
            q.id ∈ runner.dependsOn.toList) ∧
          ∃ permit ∈ Machine.idiom.permits r, permit.writes = true ∧
            ∃ x ∈ g.assets, ∃ store, Crossed.machine.stored? x = some store ∧
              plan.get? store.id = some store ∧ Machine.idiom.target store = permit.target ∧
              ¬ s.ReadsFrom x.address ∧ s.output.address ≠ x.address := by
  intro t u g
  obtain ⟨plan, hplan⟩ := Borrowed.exists_plan Borrowed.accepts_longName
  obtain ⟨hg, hassets, hrender⟩ := renders_of_graph (Borrowed.reachable (t := t) (u := u) rfl rfl)
    Borrowed.offers_outputs Borrowed.graph_eq Borrowed.injOn_digest
  have hp : Crossed.machine.Orderly := Machine.orderly _
  have hrenders := hrender hp hplan
  have hleft : Borrowed.leftStep t ∈ g.steps := .head _
  have hright : Borrowed.rightOut ∈ g.assets := .tail _ (.tail _ (.head _))
  have hstored := Crossed.stored?_machine (x := Borrowed.rightOut) rfl
  have hmade := Borrowed.runner?_leftStep (u := u) "p"
  obtain ⟨made, hmade', hrunner, -⟩ := hrenders.compute _ hleft
  obtain rfl := Option.some.inj (hmade'.symm.trans hmade)
  rw [← Provider.runnerId_eq hmade] at hrunner
  have hdepends : (Crossed.permission (Borrowed.leftStep t) Borrowed.source).id ∈
      (Crossed.machine.linked g (Borrowed.leftStep t) _).dependsOn.toList :=
    (hrenders.mem_dependsOn_linked_iff hp hg hassets hmade).2
      (.inr (.inl ⟨_, List.mem_cons_self, (Resource.id_madeFor _ _).symm⟩))
  have hmakes : Crossed.machine.MakesFor g (Borrowed.leftStep t)
      (Crossed.permission (Borrowed.leftStep t) Borrowed.source) :=
    ⟨_, Provider.pieces?_eq_some_iff.2 ⟨_, [], [], hmade, rfl, rfl, rfl⟩,
      List.mem_cons_of_mem _ List.mem_cons_self⟩
  have hheld := Borrowed.get?_written (t := t) rfl hplan
  rw [Borrowed.id_written] at hheld
  have hreads : ¬ (Borrowed.leftStep t).ReadsFrom Borrowed.rightOut.address := by
    rintro ⟨e, he, haddress⟩
    obtain rfl := List.mem_singleton.1 he
    exact absurd haddress (by decide)
  refine ⟨Borrowed.reachable rfl rfl, Borrowed.offers_outputs, Borrowed.graph_eq, Borrowed.injOn_digest,
    plan, hplan, _, hleft, _, hmakes, _, hheld, by decide, ⟨_, hrunner, hdepends⟩, _,
    Borrowed.mem_permits_written, rfl, _, hright, _, hstored,
    hrenders.get?_of_stored hright hstored, rfl, hreads, by decide⟩

end Session

end Provenance
