import Provenance.Exchange.Plan
import Provenance.Proofs.Infra.Alike
import Provenance.Proofs.Plans

/-!
# Compiling again

A pipeline that is declared again gets other numbers for its steps, and steps that do not need one another
may then stand in another order.  The graphs are alike (`Graph.Alike`), and a provider sees no difference:
it makes a plan of one exactly if it makes one of the other.

The plans are the same as long as no two steps of one origin have something of one name.  Origins and names
are put together from parts, and nothing marks where a part ends.  So two steps can have one origin, and
policies of one name; then the step that is compiled last wins, and the order shows.

* `Session.plan_of_alike`: **alike graphs are compiled alike, and into one plan if their steps are apart.**
* `Kubernetes.apart`: there every name ends in the digest of its step, so steps always are.
* `Session.exists_plans_of_crossed`: two orders of two steps, and two plans.
-/

namespace Provenance

universe u v

/-! ## Names on Kubernetes -/

namespace Kubernetes

variable {space image : String} {g : Graph} {s : Step} {r : Resource} {rs : List Resource}

/-- All that is put in for a step is named after its job, and alerts are marked. -/
theorem name_of_mem_pieces (h : (provider space image).pieces? g s = some rs) (hr : r ∈ rs) :
    r.name = jobName s ++ if r.kind = "kubernetes_manifest" then "-alerts" else "" := by
  obtain ⟨made, triggers, alerts, hmade, htriggers, halerts, rfl⟩ := Provider.pieces?_eq_some_iff.1 h
  obtain rfl := Except.ok.inj (Provider.runner?_eq_some_iff.1 hmade)
  simp only [List.mem_cons, List.mem_append, List.mem_map, List.not_mem_nil, or_false] at hr
  rcases hr with rfl | ⟨q, rfl | rfl | rfl, rfl⟩ | hr | hr
  · rw [Provider.name_linked, Provider.kind_linked]
    simp [job, inSpace, Resource.plain]
  · simp [account, inSpace, Resource.plain]
  · simp [role, inSpace, Resource.plain]
  · simp [roleBinding, inSpace, Resource.plain]
  · obtain ⟨schedule, t, -, ht, rfl⟩ := Provider.starts_of_mem_triggers? htriggers hr
    obtain rfl := Except.ok.inj ht
    simp [cronJob, inSpace, Resource.plain]
  · obtain ⟨monitoring, ts, -, hts, t, ht, rfl⟩ := Provider.watches_of_mem_alerts? halerts hr
    obtain rfl := Except.ok.inj hts
    unfold Kubernetes.alerts at ht
    split at ht
    · exact absurd ht List.not_mem_nil
    · obtain rfl := List.mem_singleton.1 ht
      simp [inSpace, Resource.plain]

/-- **On Kubernetes steps are always apart**, since every name ends in the digest of its step. -/
theorem apart (hg : g.Sound) (hdigest : Set.InjOn Naming.digest g.hashed) :
    (provider space image).Apart g := by
  intro s hs t ht rs qs hrs hqs r hr q hq hid horigin
  have hp := Kubernetes.orderly space image
  obtain ⟨part, -, hgives⟩ := Provider.exists_gives_of_mem_pieces hs hrs hr
  obtain ⟨part', -, hgives'⟩ := Provider.exists_gives_of_mem_pieces ht hqs hq
  obtain ⟨hkind, hname⟩ := (hgives'.plays hp).of_id (hgives.plays hp) hid
  rw [name_of_mem_pieces hrs hr, name_of_mem_pieces hqs hq, hkind] at hname
  exact Provider.step_eq_of_name hg hdigest hs ht ((String.append_left_inj _).1 hname) horigin

end Kubernetes

namespace Session

variable {α : Type u} {β : Type v} {s : Session α} {s' : Session β} {terminals terminals' : List Asset}

/-- **Compiling again.**  Let two clients build graphs that differ in the numbers of their steps and in the
order of execution only, and let digests tell apart what is hashed for one of them.  Then each of the four
providers makes a plan of one graph exactly if it makes one of the other.  If no two steps of one origin
have something of one name, the two plans are the same, and so are their texts.  This is so if the steps
differ in their origins, and on Kubernetes it always is. -/
theorem plan_of_alike (hs : s.Reachable) (hterminals : ∀ a ∈ terminals, s.Offers (.asset a)) {g : Graph}
    (hg : s.graph terminals = .ok g) (hs' : s'.Reachable)
    (hterminals' : ∀ a ∈ terminals', s'.Offers (.asset a)) {g' : Graph}
    (hg' : s'.graph terminals' = .ok g') (halike : g.Alike g') {p : Provider} (hp : p.Standard)
    (hdigest : Set.InjOn Naming.digest g.hashed) :
    ((∃ plan, Plan.ofGraph p Hooks.none g = .ok plan) ↔
      ∃ plan, Plan.ofGraph p Hooks.none g' = .ok plan) ∧
    (p.Apart g → ∀ plan plan', Plan.ofGraph p Hooks.none g = .ok plan →
      Plan.ofGraph p Hooks.none g' = .ok plan' → plan = plan' ∧ plan.text = plan'.text) ∧
    ((Set.InjOn Step.origin {t | t ∈ g.steps} ∨ ∃ space image, p = Kubernetes.provider space image) →
      p.Apart g) := by
  obtain ⟨hsound, hassets⟩ := addresses_of_graph hs hterminals hg
  obtain ⟨hsound', hassets'⟩ := addresses_of_graph hs' hterminals' hg'
  refine ⟨Plan.exists_ofGraph_iff_of_alike hp.blind halike hsound hsound' hassets hassets' hp.orderly
    hp.selfContained hdigest, fun hapart plan plan' hplan hplan' => ?_, ?_⟩
  · obtain rfl := Plan.eq_of_alike hp.blind halike hsound hsound' hassets hassets' hp.orderly
      hp.selfContained hdigest hapart hplan hplan'
    exact ⟨rfl, rfl⟩
  · rintro (horigin | ⟨space, image, rfl⟩)
    · exact Provider.apart_of_injOn_origin horigin
    · exact Kubernetes.apart hsound hdigest

/-! ## Two steps of one origin -/

namespace Crossed

/-- What one step reads. -/
def left : Asset := ⟨⟨"a 35a88db1 n", "L"⟩, none, some (.plain .objectStore), none, 0⟩

/-- What the other step reads. -/
def right : Asset := ⟨⟨"n", "L"⟩, none, some (.plain .objectStore), none, 1⟩

/-- What is made of the first data. -/
def leftOut : Asset := ⟨⟨"a@b", "c"⟩, none, none, none, 2⟩

/-- What is made of the other data.  The text of its address is the same. -/
def rightOut : Asset := ⟨⟨"a", "b@c"⟩, none, none, none, 3⟩

/-- A task of one parameter. -/
def task (name : String) : Task := .plain name ["src"] fun _ => ⟨.ok .empty, false, []⟩

/-- A step that reads one asset and writes to another one. -/
def stepOf (t : Task) (id : StepId) (x y : Asset) : Step := ⟨id, t, [("src", x)], y, false⟩

/-- The step that reads the first data. -/
def leftStep (t : Task) (id : StepId) : Step := stepOf t id left leftOut

/-- The step that reads the other data. -/
def rightStep (u : Task) (id : StepId) : Step := stepOf u id right rightOut

/-- The session after some steps, with the handles of the two outputs. -/
def after (steps : List Step) (l r : Asset) : Session Unit :=
  .ofSteps 4 steps [("left", left), ("right", right), ("leftOut", l), ("rightOut", r)]

/-- The step on the left is declared first. -/
def leftFirst (t u : Task) : Session Unit :=
  after [rightStep u 2, leftStep t 1] (leftOut.producedBy 1) (rightOut.producedBy 2)

/-- The step on the right is declared first. -/
def rightFirst (t u : Task) : Session Unit :=
  after [leftStep t 2, rightStep u 1] (leftOut.producedBy 2) (rightOut.producedBy 1)

/-- The graph in which the step on the left comes first. -/
def leftGraph (t u : Task) : Graph :=
  ⟨[leftOut.address, rightOut.address], [left, leftOut, right, rightOut],
    [leftStep t 1, rightStep u 2], (leftStep t 1).links ++ (rightStep u 2).links⟩

/-- The graph in which the step on the right comes first. -/
def rightGraph (t u : Task) : Graph :=
  ⟨[leftOut.address, rightOut.address], [right, rightOut, left, leftOut],
    [rightStep u 1, leftStep t 2], (rightStep u 1).links ++ (leftStep t 2).links⟩

theorem declared : (after [] leftOut rightOut).Reachable := by
  have hleft : (ofSteps 1 [] [("left", left)]).Reachable :=
    .keep "left" (.declare "a 35a88db1 n" "L" "left" .start)
      (.store (a := { left with storage := none }) (.plain .objectStore) (.of_item? "left" rfl))
  have hright : (ofSteps 2 [] [("left", left), ("right", right)]).Reachable :=
    .keep "right" (.declare "n" "L" "right" hleft)
      (.store (a := { right with storage := none }) (.plain .objectStore) (.of_item? "right" rfl))
  exact .declare "a" "b@c" "rightOut" (.declare "a@b" "c" "leftOut" hright)

variable {t u : Task}

theorem reachable_leftFirst (ht : t.params = ["src"]) (hu : u.params = ["src"]) :
    (leftFirst t u).Reachable := by
  have hput : (after [] leftOut rightOut).put ⟨t, [("src", left)]⟩ leftOut =
      .ok (leftOut.producedBy 1, after [leftStep t 1] leftOut rightOut) := by
    cbv
  have hput' : (after [leftStep t 1] (leftOut.producedBy 1) rightOut).put ⟨u, [("src", right)]⟩ rightOut =
      .ok (rightOut.producedBy 2,
        after [rightStep u 2, leftStep t 1] (leftOut.producedBy 1) rightOut) := by
    cbv
  have hone : (after [leftStep t 1] (leftOut.producedBy 1) rightOut).Reachable :=
    .put "leftOut" declared (.single (.of_item? "left" rfl) (transform_of_params ht))
      (.of_item? "leftOut" rfl) hput
  exact .put "rightOut" hone (.single (.of_item? "right" rfl) (transform_of_params hu))
    (.of_item? "rightOut" rfl) hput'

theorem reachable_rightFirst (ht : t.params = ["src"]) (hu : u.params = ["src"]) :
    (rightFirst t u).Reachable := by
  have hput : (after [] leftOut rightOut).put ⟨u, [("src", right)]⟩ rightOut =
      .ok (rightOut.producedBy 1, after [rightStep u 1] leftOut rightOut) := by
    cbv
  have hput' : (after [rightStep u 1] leftOut (rightOut.producedBy 1)).put ⟨t, [("src", left)]⟩ leftOut =
      .ok (leftOut.producedBy 2,
        after [leftStep t 2, rightStep u 1] leftOut (rightOut.producedBy 1)) := by
    cbv
  have hone : (after [rightStep u 1] leftOut (rightOut.producedBy 1)).Reachable :=
    .put "rightOut" declared (.single (.of_item? "right" rfl) (transform_of_params hu))
      (.of_item? "rightOut" rfl) hput
  exact .put "leftOut" hone (.single (.of_item? "left" rfl) (transform_of_params ht))
    (.of_item? "leftOut" rfl) hput'

theorem offers_leftFirst : ∀ a ∈ [leftOut.producedBy 1, rightOut.producedBy 2],
    (leftFirst t u).Offers (.asset a) := by
  intro a ha
  rcases List.mem_pair.1 ha with rfl | rfl
  · exact .of_item? "leftOut" rfl
  · exact .of_item? "rightOut" rfl

theorem offers_rightFirst : ∀ a ∈ [leftOut.producedBy 2, rightOut.producedBy 1],
    (rightFirst t u).Offers (.asset a) := by
  intro a ha
  rcases List.mem_pair.1 ha with rfl | rfl
  · exact .of_item? "leftOut" rfl
  · exact .of_item? "rightOut" rfl

theorem graph_leftFirst : (leftFirst t u).graph [leftOut.producedBy 1, rightOut.producedBy 2] =
    .ok (leftGraph t u) := by
  cbv

theorem graph_rightFirst : (rightFirst t u).graph [leftOut.producedBy 2, rightOut.producedBy 1] =
    .ok (rightGraph t u) := by
  cbv

theorem nodup_leftGraph : ((leftGraph t u).assets.map (·.address)).Nodup := by
  show ([left, leftOut, right, rightOut].map (·.address)).Nodup
  decide

/-- The two orders give graphs that are alike. -/
theorem alike : (leftGraph t u).Alike (rightGraph t u) where
  assets a := by
    have hperm : ([left, leftOut] ++ [right, rightOut]).Perm ([right, rightOut] ++ [left, leftOut]) :=
      List.perm_append_comm
    have hperm : (leftGraph t u).assets.Perm (rightGraph t u).assets := hperm
    have hnodup : ((rightGraph t u).assets.map (·.address)).Nodup :=
      (hperm.map _).nodup_iff.1 nodup_leftGraph
    have hfound : (leftGraph t u).asset? a = (rightGraph t u).asset? a := Option.ext fun x => by
      rw [Provider.asset?_eq_some_iff nodup_leftGraph, Provider.asset?_eq_some_iff hnodup, hperm.mem_iff]
    rw [hfound]
  steps := by
    have hleft : leftStep t 2 ∈ (rightGraph t u).steps := .tail _ (.head _)
    have hright : rightStep u 1 ∈ (rightGraph t u).steps := .head _
    refine ⟨fun s => if s.id = 1 then leftStep t 2 else rightStep u 1, ⟨?_, ?_, ?_⟩, ?_⟩
    · intro s hs
      rcases List.mem_pair.1 hs with rfl | rfl
      · exact hleft
      · exact hright
    · intro s hs s' hs' heq
      rcases List.mem_pair.1 hs with rfl | rfl <;> rcases List.mem_pair.1 hs' with rfl | rfl
      · rfl
      · exact absurd (congrArg Step.output heq) (show leftOut ≠ rightOut by decide)
      · exact absurd (congrArg Step.output heq) (show rightOut ≠ leftOut by decide)
      · rfl
    · intro s hs
      rcases List.mem_pair.1 hs with rfl | rfl
      · exact ⟨rightStep u 2, .tail _ (.head _), rfl⟩
      · exact ⟨leftStep t 1, .head _, rfl⟩
    · intro s hs
      rcases List.mem_pair.1 hs with rfl | rfl
      · exact ⟨rfl, rfl, rfl, rfl, rfl, rfl⟩
      · exact ⟨rfl, rfl, rfl, rfl, rfl, rfl⟩

/-- What is hashed for the graphs: the location of the storage, and the outputs of the two steps. -/
theorem digests : Naming.digest "L" = "f0885987" ∧
    Naming.digest (Naming.identity leftOut.address) = "f145fb23" ∧
    Naming.digest (Naming.identity rightOut.address) = "35a88db1" := by
  decide +kernel

theorem injOn_digest : Set.InjOn Naming.digest (leftGraph t u).hashed := by
  have hnodup : (["L", Naming.identity leftOut.address, Naming.identity rightOut.address].map
      Naming.digest).Nodup := by
    obtain ⟨hplace, hleft, hright⟩ := digests
    rw [List.map_cons, List.map_cons, List.map_cons, List.map_nil, hplace, hleft, hright]
    decide
  have hhashed : ∀ text ∈ (leftGraph t u).hashed,
      text ∈ ["L", Naming.identity leftOut.address, Naming.identity rightOut.address] := by
    rintro text (⟨x, hx, hstorage, rfl⟩ | ⟨s, hs, rfl⟩)
    · simp only [leftGraph, List.mem_cons, List.not_mem_nil, or_false] at hx
      rcases hx with rfl | rfl | rfl | rfl
      · exact .head _
      · exact absurd hstorage (by decide)
      · exact .head _
      · exact absurd hstorage (by decide)
    · rcases List.mem_pair.1 hs with rfl | rfl
      · exact .tail _ (.head _)
      · exact .tail _ (.tail _ (.head _))
  exact fun a ha b hb => List.inj_on_of_nodup_map hnodup (hhashed a ha) (hhashed b hb)

/-- The directory under which the machine keeps storage. -/
def root : String := "./lineage-data"

/-- The machine that both graphs are compiled for. -/
def machine : Provider := Machine.provider root

/-- The directory of an asset. -/
def directory (x : Asset) : Resource :=
  (Machine.directory root x (.plain .objectStore)).madeFor x.address.text

/-- The permission of a step to read an asset. -/
def permission (s : Step) (x : Asset) : Resource :=
  (Machine.permission s .read (directory x)).madeFor s.origin

/-- The storage of an asset is its directory. -/
theorem stored?_machine {x : Asset} (hx : x.storage = some (.plain .objectStore)) :
    machine.stored? x = some (directory x) :=
  Provider.stored?_eq_some_iff.2 ⟨_, _, hx, rfl, rfl⟩

/-- What is put in for a step: its process, and the permission on what it reads. -/
theorem pieces?_stepOf {g : Graph} {x y : Asset} (name : String) (id : StepId)
    (hx : g.asset? x.address = some x) (hstorage : x.storage = some (.plain .objectStore))
    (hy : g.asset? y.address = some y) (hplain : y.storage = none) :
    ∃ process, machine.pieces? g (stepOf (task name) id x y) =
      some ([process] ++ [permission (stepOf (task name) id x y) x]) := by
  have hbindings : machine.bindings g (stepOf (task name) id x y) =
      [⟨x, some (directory x), .read⟩, ⟨y, none, .write⟩] := by
    have hnone : machine.stored? y = none := by
      rw [Provider.stored?, hplain, Option.bind_none]
    unfold Provider.bindings
    simp [Compilation.touched, stepOf, hx, hy, stored?_machine hstorage, hnone]
  have hmade : machine.runner? g (stepOf (task name) id x y) =
      some ⟨Machine.process (stepOf (task name) id x y),
        [Machine.permission (stepOf (task name) id x y) .read (directory x)]⟩ := by
    rw [Provider.runner?_eq_some_iff, hbindings]
    rfl
  exact ⟨_, Provider.pieces?_eq_some_iff.2 ⟨_, [], [], hmade, rfl, rfl, rfl⟩⟩

/-- The directories differ in their names. -/
theorem id_directory_ne : (directory left).id ≠ (directory right).id := by
  intro hid
  have hkind : '.' ∉ "local_directory".toList := by decide
  have hname : Naming.storage left.address Machine.room '-' =
      Naming.storage right.address Machine.room '-' := (Resource.idOf_inj hkind hkind hid).2
  have hreadable := (String.append_left_inj _).1 ((String.append_left_inj _).1 hname)
  exact absurd hreadable (by decide)

theorem addresses_leftGraph (n m : String) : (leftGraph (task n) (task m)).Sound ∧
    ((leftGraph (task n) (task m)).assets.map (·.address)).Nodup :=
  addresses_of_graph (reachable_leftFirst rfl rfl) offers_leftFirst graph_leftFirst

theorem addresses_rightGraph (n m : String) : (rightGraph (task n) (task m)).Sound ∧
    ((rightGraph (task n) (task m)).assets.map (·.address)).Nodup :=
  addresses_of_graph (reachable_rightFirst rfl rfl) offers_rightFirst graph_rightFirst

/-- The graph is compiled in both orders, if it is accepted. -/
theorem exists_plans {n m : String} (haccepts : machine.Accepts (leftGraph (task n) (task m))) :
    (∃ plan, Plan.ofGraph machine Hooks.none (leftGraph (task n) (task m)) = .ok plan) ∧
      ∃ plan, Plan.ofGraph machine Hooks.none (rightGraph (task n) (task m)) = .ok plan := by
  have hp : machine.Standard := .machine root
  obtain ⟨hg, hassets⟩ := addresses_leftGraph n m
  obtain ⟨hh, hassets'⟩ := addresses_rightGraph n m
  have hleft : ∃ plan, Plan.ofGraph machine Hooks.none (leftGraph (task n) (task m)) = .ok plan :=
    (Plan.exists_ofGraph_iff hp.orderly hg hassets injOn_digest hp.selfContained).2 haccepts
  exact ⟨hleft, (Plan.exists_ofGraph_iff_of_alike hp.blind alike hg hh hassets hassets' hp.orderly
    hp.selfContained injOn_digest).1 hleft⟩

theorem accepts : machine.Accepts (leftGraph (task "p") (task "q")) := by
  decide

/-- Nothing that is put in for one step has the name of anything that is put in for the other one. -/
theorem apart : machine.Apart (leftGraph (task "p") (task "q")) :=
  Provider.apart_of_pair rfl (by decide)

/-! ### One name for two permissions -/

/-- The name of the second task: it ends where the digest of the first step does. -/
def longName : String := "p a b f145fb23"

theorem accepts_longName : machine.Accepts (leftGraph (task "p") (task longName)) := by
  decide

theorem stepName_leftStep (id : StepId) : Machine.stepName (leftStep (task "p") id) = "p-a-b-f145fb23" := by
  unfold Machine.stepName Naming.step
  dsimp only [leftStep, stepOf]
  rw [digests.2.1]
  decide

theorem stepName_rightStep (id : StepId) :
    Machine.stepName (rightStep (task longName) id) = "p-a-b-f145fb23-a-35a88db1" := by
  unfold Machine.stepName Naming.step
  dsimp only [rightStep, stepOf]
  rw [digests.2.2]
  decide

/-- **The permissions of the two steps have one name.** -/
theorem id_permission (i j : StepId) : (permission (leftStep (task "p") i) left).id =
    (permission (rightStep (task longName) j) right).id := by
  have hroom : max (Naming.budget Machine.room) 4 + (Naming.digestLength + 1) ≤ Machine.room := by
    decide
  have hname : Machine.stepName (leftStep (task "p") i) ++ "-" ++
      Naming.sanitize (directory left).name Machine.room '-' =
        Machine.stepName (rightStep (task longName) j) ++ "-" ++
          Naming.sanitize (directory right).name Machine.room '-' := by
    have hleft : Naming.sanitize (directory left).name Machine.room '-' =
        Naming.storage left.address Machine.room '-' := Naming.sanitize_storage _ hroom
    have hright : Naming.sanitize (directory right).name Machine.room '-' =
        Naming.storage right.address Machine.room '-' := Naming.sanitize_storage _ hroom
    rw [stepName_leftStep, stepName_rightStep, hleft, hright]
    unfold Naming.storage
    dsimp only [left, right]
    rw [digests.1]
    decide
  have hid : ∀ s x, (permission s x).id = Resource.idOf "local_file_permission"
      (Machine.stepName s ++ "-" ++ Naming.sanitize (directory x).name Machine.room '-') :=
    fun s x => rfl
  rw [hid, hid, hname]

/-- A permission depends on the directory that it is for. -/
theorem dependsOn_permission {s : Step} {x : Asset} {id : ResourceId} :
    id ∈ (permission s x).dependsOn.toList ↔ id = (directory x).id :=
  @Machine.dependsOn_permission s .read (directory x) id

/-- **The plan shows the permission of the step that comes last.** -/
theorem ne_of_ofGraph {plan plan' : Plan}
    (hplan : Plan.ofGraph machine Hooks.none (leftGraph (task "p") (task longName)) = .ok plan)
    (hplan' : Plan.ofGraph machine Hooks.none (rightGraph (task "p") (task longName)) = .ok plan') :
    plan ≠ plan' := by
  have hp := Machine.orderly root
  obtain ⟨hg, hassets⟩ := addresses_leftGraph "p" longName
  obtain ⟨hh, hassets'⟩ := addresses_rightGraph "p" longName
  have hdigest : Set.InjOn Naming.digest (rightGraph (task "p") (task longName)).hashed :=
    injOn_digest.mono (alike.symm.hashed_subset hassets')
  obtain ⟨_, hright⟩ := pieces?_stepOf (g := leftGraph (task "p") (task longName)) longName 2 (x := right)
    (y := rightOut) rfl rfl rfl rfl
  obtain ⟨_, hleft⟩ := pieces?_stepOf (g := rightGraph (task "p") (task longName)) "p" 2 (x := left)
    (y := leftOut) rfl rfl rfl rfl
  have hget : plan.get? (permission (rightStep (task longName) 2) right).id =
      some (permission (rightStep (task longName) 2) right) :=
    (Plan.get?_eq_some_iff hp hg hassets injOn_digest hplan).2
      (.inr (@Provider.lastPiece?_append_singleton _ _ _ _ [leftStep (task "p") 1] _ hright))
  have hget' : plan'.get? (permission (leftStep (task "p") 2) left).id =
      some (permission (leftStep (task "p") 2) left) :=
    (Plan.get?_eq_some_iff hp hh hassets' hdigest hplan').2
      (.inr (@Provider.lastPiece?_append_singleton _ _ _ _ [rightStep (task longName) 1] _ hleft))
  rintro rfl
  rw [id_permission 2 2] at hget'
  have hsame : permission (rightStep (task longName) 2) right = permission (leftStep (task "p") 2) left :=
    Option.some.inj (hget.symm.trans hget')
  exact id_directory_ne (dependsOn_permission.1 (hsame ▸ dependsOn_permission.2 rfl)).symm

end Crossed

/-- Two steps of one origin are compiled into one plan in both orders, since they are apart. -/
theorem plan_of_alike_crossed : ∃ plan,
    Plan.ofGraph Crossed.machine Hooks.none (Crossed.leftGraph (Crossed.task "p") (Crossed.task "q")) =
      .ok plan ∧
    Plan.ofGraph Crossed.machine Hooks.none (Crossed.rightGraph (Crossed.task "p") (Crossed.task "q")) =
      .ok plan := by
  obtain ⟨⟨plan, hplan⟩, -⟩ := Crossed.exists_plans Crossed.accepts
  obtain ⟨hiff, heq, -⟩ := plan_of_alike (Crossed.reachable_leftFirst rfl rfl) Crossed.offers_leftFirst
    Crossed.graph_leftFirst (Crossed.reachable_rightFirst rfl rfl) Crossed.offers_rightFirst
    Crossed.graph_rightFirst (Crossed.alike (t := Crossed.task "p") (u := Crossed.task "q"))
    (.machine "./lineage-data") Crossed.injOn_digest
  obtain ⟨plan', hplan'⟩ := hiff.1 ⟨plan, hplan⟩
  obtain ⟨rfl, -⟩ := heq Crossed.apart plan plan' hplan hplan'
  exact ⟨plan, hplan, hplan'⟩

/-- **The order of execution can show in the plan.**  Two steps write to different addresses whose texts are
the same, and each has a permission, both of one name.  The graphs of the two orders are alike, both are
compiled, and the plans differ in their dependencies. -/
theorem exists_plans_of_crossed :
    let t := Crossed.task "p"
    let u := Crossed.task Crossed.longName
    (Crossed.leftFirst t u).Reachable ∧ (Crossed.rightFirst t u).Reachable ∧
      (∀ a ∈ [Crossed.leftOut.producedBy 1, Crossed.rightOut.producedBy 2],
        (Crossed.leftFirst t u).Offers (.asset a)) ∧
      (∀ a ∈ [Crossed.leftOut.producedBy 2, Crossed.rightOut.producedBy 1],
        (Crossed.rightFirst t u).Offers (.asset a)) ∧
      (Crossed.leftFirst t u).graph [Crossed.leftOut.producedBy 1, Crossed.rightOut.producedBy 2] =
        .ok (Crossed.leftGraph t u) ∧
      (Crossed.rightFirst t u).graph [Crossed.leftOut.producedBy 2, Crossed.rightOut.producedBy 1] =
        .ok (Crossed.rightGraph t u) ∧
      (Crossed.leftGraph t u).Alike (Crossed.rightGraph t u) ∧
      Set.InjOn Naming.digest (Crossed.leftGraph t u).hashed ∧
      ∃ plan plan', Plan.ofGraph Crossed.machine Hooks.none (Crossed.leftGraph t u) = .ok plan ∧
        Plan.ofGraph Crossed.machine Hooks.none (Crossed.rightGraph t u) = .ok plan' ∧ plan ≠ plan' := by
  obtain ⟨⟨plan, hplan⟩, plan', hplan'⟩ := Crossed.exists_plans Crossed.accepts_longName
  exact ⟨Crossed.reachable_leftFirst rfl rfl, Crossed.reachable_rightFirst rfl rfl,
    Crossed.offers_leftFirst, Crossed.offers_rightFirst, Crossed.graph_leftFirst, Crossed.graph_rightFirst,
    Crossed.alike, Crossed.injOn_digest, plan, plan', hplan, hplan', Crossed.ne_of_ofGraph hplan hplan'⟩

end Session

end Provenance
