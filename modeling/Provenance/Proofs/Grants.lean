import Provenance.Proofs.Plans

/-!
# Grants

A step is granted the use of each storage that it touches, by an access resource that is named after the
step and the storage.  The plan keeps one resource under a name, so a grant is lost where another one has
its name.

Under the name of a grant there is a grant of the same step, as long as the origins of the steps differ
(`Plan.Renders.exists_grant`), so only the storage of that one step matters.  On Dataproc and on one
machine the kind of a grant goes with the kind of the storage, and then its name tells the storage
(`Dataproc.id_of_member`, `Machine.id_of_permission`): every grant is in the plan.  On AWS all policies are
of one kind, and their names do not mention that of the storage.  So a step that uses two storages of one
name and of different kinds in the same way is left with one policy for both.

* `Session.grants_of_graph`: **every grant is in the plan** for Dataproc and for one machine, and for AWS
  exactly if no step uses two such storages.
* `Session.exists_lost_grant`: a step whose policy on a bucket is lost to the one on a table.
-/

namespace Provenance

universe u

namespace Provider

/-- A step uses the storage of an asset that it touches. -/
def Uses (p : Provider) (g : Graph) (s : Step) (access : Access) (r : Resource) : Prop :=
  ∃ x ∈ g.assets, (x.address, access) ∈ Compilation.touched s ∧ p.stored? x = some r

/-- The access resources of a step are some of its own, and a grant for each storage that it uses. -/
structure GrantsBy (p : Provider) (own : Step → List Resource)
    (grant : Step → Access → Resource → Resource) : Prop where
  access : ∀ s bs made, p.compute s bs = .ok made →
    made.access = own s ++ (stored bs).map fun e => grant s e.1 e.2.2
  kind : ∀ s, ∀ q ∈ own s, ∀ access r, q.kind ≠ (grant s access r).kind
  depends : ∀ s access r, r.id ∈ (grant s access r).dependsOn.toList

variable {p : Provider} {g : Graph} {s : Step} {access : Access} {r : Resource}

theorem uses_iff (hassets : (g.assets.map (·.address)).Nodup) :
    p.Uses g s access r ↔ ∃ x, (access, x, r) ∈ stored (p.bindings g s) := by
  simp only [mem_stored_bindings_iff, asset?_eq_some_iff hassets]
  constructor
  · rintro ⟨x, hx, htouched, hr⟩
    exact ⟨x, _, htouched, ⟨hx, rfl⟩, hr⟩
  · rintro ⟨x, _, htouched, ⟨hx, rfl⟩, hr⟩
    exact ⟨x, hx, htouched, hr⟩

/-- The only storage that a step writes to is that of its output. -/
theorem Uses.eq_of_write {q : Resource} (hassets : (g.assets.map (·.address)).Nodup)
    (hr : p.Uses g s .write r) (hq : p.Uses g s .write q) : r = q := by
  obtain ⟨x, hx, hxs, hxr⟩ := hr
  obtain ⟨y, hy, hys, hyq⟩ := hq
  obtain rfl := List.inj_on_of_nodup_map hassets hx hy
    ((eq_output_of_mem_touched hxs).trans (eq_output_of_mem_touched hys).symm)
  exact Option.some.inj (hxr.symm.trans hyq)

/-- A step uses storage in one way, since it does not read what it writes. -/
theorem Uses.access_eq {access' : Access} (hp : p.Orderly) (hg : g.Sound)
    (hassets : (g.assets.map (·.address)).Nodup) (hdigest : Set.InjOn Naming.digest g.hashed)
    (hs : s ∈ g.steps) (hr : p.Uses g s access r) (hq : p.Uses g s access' r) : access = access' := by
  obtain ⟨x, hx, hxs, hxr⟩ := hr
  obtain ⟨y, hy, hys, hyr⟩ := hq
  obtain rfl := asset_eq_of_stored hp.legible hassets hdigest hy hyr hx hxr rfl rfl
  have hself : ∀ i ∈ s.inputs, i.2.address ≠ s.output.address := hg.ordered.self s hs
  unfold Compilation.touched at hxs hys
  simp only [List.mem_append, List.mem_map, Prod.mk.injEq, List.mem_singleton] at hxs hys
  rcases hxs with ⟨i, hi, haddress, rfl⟩ | ⟨hout, rfl⟩ <;>
    rcases hys with ⟨j, hj, haddress', rfl⟩ | ⟨hout', rfl⟩
  · rfl
  · exact absurd (haddress.trans hout') (hself i hi)
  · exact absurd (haddress'.trans hout) (hself j hj)
  · rfl

end Provider

namespace Plan

variable {p : Provider} {g : Graph} {plan : Plan} {s : Step} {access : Access} {r : Resource}
  {own : Step → List Resource} {grant : Step → Access → Resource → Resource}

/-- The plan holds a grant of a step, which depends on the storage. -/
structure Grants (plan : Plan) (s : Step) (r grant : Resource) : Prop where
  held : plan.get? grant.id = some (grant.madeFor s.origin)
  depends : r.id ∈ grant.dependsOn.toList

/-- **Under the name of a grant there is a grant of the same step.** -/
theorem Renders.exists_grant (h : plan.Renders p g) (hp : p.Orderly) (hgrants : p.GrantsBy own grant)
    (hassets : (g.assets.map (·.address)).Nodup) (horigin : Set.InjOn Step.origin {s | s ∈ g.steps})
    (hs : s ∈ g.steps) (hr : p.Uses g s access r) : ∃ access' r', p.Uses g s access' r' ∧
      (grant s access' r').id = (grant s access r).id ∧ plan.Grants s r' (grant s access' r') := by
  obtain ⟨x, hx⟩ := (Provider.uses_iff hassets).1 hr
  obtain ⟨made, hmade, -, haccess⟩ := h.compute s hs
  have hlist := hgrants.access s _ made (Provider.runner?_eq_some_iff.1 hmade)
  have hmem : grant s access r ∈ made.access := by
    rw [hlist]
    exact List.mem_append_right _ (List.mem_map.2 ⟨_, hx, rfl⟩)
  have hgives : p.Gives g .access ((grant s access r).madeFor s.origin) := .access hs hmade hmem
  obtain ⟨held, hget, hheld⟩ := haccess _ hmem
  obtain ⟨hid, part, hpart⟩ := h.gives _ _ hget
  obtain rfl := hgives.eq_part hp.legible hpart hid
  cases hpart with
  | @access t made' q ht hmade' hq =>
    obtain rfl := horigin ht hs hheld
    obtain rfl := Option.some.inj (hmade'.symm.trans hmade)
    rw [hlist] at hq
    rcases List.mem_append.1 hq with hq | hq
    · have hkind := ((Provider.Gives.access ht hmade' (hlist ▸ List.mem_append_left _ hq)).plays hp).of_id
        (hgives.plays hp) hid
      exact absurd hkind.1 (hgrants.kind t q hq access r)
    · obtain ⟨⟨access', y, r'⟩, he, rfl⟩ := List.mem_map.1 hq
      refine ⟨access', r', (Provider.uses_iff hassets).2 ⟨y, he⟩, hid, ?_, hgrants.depends t access' r'⟩
      rwa [← hid] at hget

/-- Where the name of a grant tells the storage and its use, every grant is in the plan. -/
theorem Renders.grants (h : plan.Renders p g) (hp : p.Orderly) (hgrants : p.GrantsBy own grant)
    (hassets : (g.assets.map (·.address)).Nodup) (horigin : Set.InjOn Step.origin {s | s ∈ g.steps})
    (hs : s ∈ g.steps)
    (htell : ∀ access r access' r', p.Uses g s access r → p.Uses g s access' r' →
      (grant s access' r').id = (grant s access r).id → access' = access ∧ r' = r)
    (hr : p.Uses g s access r) : plan.Grants s r (grant s access r) := by
  obtain ⟨access', r', hr', hid, hheld⟩ := h.exists_grant hp hgrants hassets horigin hs hr
  obtain ⟨rfl, rfl⟩ := htell access r access' r' hr hr' hid
  exact hheld

/-- Storage that steps use is told by its name in the plan. -/
theorem Renders.eq_of_uses (h : plan.Renders p g) {t : Step} {access' : Access} {q : Resource}
    (hr : p.Uses g s access r) (hq : p.Uses g t access' q) (hid : q.id = r.id) : q = r := by
  obtain ⟨x, hx, -, hr⟩ := hr
  obtain ⟨y, hy, -, hq⟩ := hq
  have hget := h.get?_of_stored hy hq
  rw [hid, h.get?_of_stored hx hr] at hget
  exact (Option.some.inj hget).symm

end Plan

/-! ## Names of grants -/

/-- The word for a use tells it from the other one. -/
theorem Access.eq_of_word {a b : Access} {x y : String} (h : a.word ++ x = b.word ++ y) : a = b := by
  have hlist := congrArg String.toList h
  rw [String.toList_append, String.toList_append] at hlist
  cases a <;> cases b
  · rfl
  · exact absurd (List.cons.inj hlist).1 (by decide)
  · exact absurd (List.cons.inj hlist).1 (by decide)
  · rfl

/-- The name of storage in a provider's plan, and its kind. -/
theorem Provider.Uses.exists_storage {p : Provider} {g : Graph} {s : Step} {access : Access}
    {r : Resource} (h : p.Uses g s access r) : ∃ x spec made, p.storage x spec = .ok made ∧
      r.kind = made.kind ∧ r.name = made.name := by
  obtain ⟨x, -, -, hr⟩ := h
  obtain ⟨spec, made, -, hmade, rfl⟩ := Provider.stored?_eq_some_iff.1 hr
  exact ⟨x, spec, made, hmade, rfl, rfl⟩

section

variable {g : Graph} {s : Step} {access access' : Access} {r r' : Resource}

namespace Machine

variable {root : String}

theorem grantsBy : (provider root).GrantsBy (fun _ => []) permission where
  access s bs made h := by
    obtain rfl := Except.ok.inj h
    rfl
  kind s q hq := absurd hq List.not_mem_nil
  depends s access r := dependsOn_permission.2 rfl

theorem storage_of_uses (h : (provider root).Uses g s access r) : r.kind = "local_directory" ∧
    Naming.sanitize r.name room '-' = r.name := by
  obtain ⟨x, spec, made, hmade, hkind, hname⟩ := h.exists_storage
  obtain rfl := Except.ok.inj hmade
  rw [hkind, hname]
  unfold directory
  dsimp only
  rw [Resource.kind_setSome, Resource.name_setSome]
  exact ⟨rfl, Naming.sanitize_storage x.address (by decide)⟩

/-- The name of a permission tells the storage. -/
theorem id_of_permission (hr : (provider root).Uses g s access r)
    (hr' : (provider root).Uses g s access' r')
    (hid : (permission s access' r').id = (permission s access r).id) : r'.id = r.id := by
  obtain ⟨hkind, hname⟩ := storage_of_uses hr
  obtain ⟨hkind', hname'⟩ := storage_of_uses hr'
  have hnames := ((plays_permission s access' r').of_id (plays_permission s access r) hid).2
  have hsanitized : Naming.sanitize r'.name room '-' = Naming.sanitize r.name room '-' :=
    (String.append_right_inj _).1 hnames
  rw [hname, hname'] at hsanitized
  rw [Resource.id, Resource.id, hkind, hkind', hsanitized]

end Machine

namespace Dataproc

variable {project region : String}

theorem kind_member : (member project s access r).kind = if r.kind = "google_bigquery_table" then
    "google_bigquery_table_iam_member" else "google_storage_bucket_iam_member" := by
  unfold member
  by_cases htable : r.kind = "google_bigquery_table" <;> simp [htable, Resource.plain]

theorem name_member : (member project s access r).name =
    jobName s ++ ("-" ++ (access.word ++ ("-" ++ Naming.sanitize r.name room '-'))) := by
  unfold member
  by_cases htable : r.kind = "google_bigquery_table" <;>
    simp [htable, Resource.plain, String.append_assoc]

theorem grantsBy : (provider project region).GrantsBy (fun s => [account project s])
    (member project) where
  access s bs made h := by
    obtain ⟨compute, -, rfl⟩ := map_eq_ok_iff.1 h
    rfl
  kind s q hq access r := by
    obtain rfl := List.mem_singleton.1 hq
    rw [kind_member]
    show "google_service_account" ≠ _
    split <;> decide
  depends s access r := dependsOn_member.2 (.inr rfl)

theorem storage_of_uses (h : (provider project region).Uses g s access r) :
    (r.kind = "google_storage_bucket" ∨ r.kind = "google_bigquery_table") ∧
      Naming.sanitize r.name room '-' = r.name := by
  obtain ⟨x, spec, made, hmade, hkind, hname⟩ := h.exists_storage
  obtain ⟨hkinds, hstore, -⟩ := of_store hmade
  rw [hkind, hname, hstore]
  exact ⟨hkinds, Naming.sanitize_storage x.address (by decide)⟩

/-- The kind and the name of a membership tell the storage and its use. -/
theorem id_of_member (hr : (provider project region).Uses g s access r)
    (hr' : (provider project region).Uses g s access' r')
    (hid : (member project s access' r').id = (member project s access r).id) :
    access' = access ∧ r'.id = r.id := by
  obtain ⟨hkind, hname⟩ := storage_of_uses hr
  obtain ⟨hkind', hname'⟩ := storage_of_uses hr'
  obtain ⟨hkinds, hnames⟩ := (plays_member project s access' r').of_id (plays_member project s access r) hid
  rw [name_member, name_member] at hnames
  have hwords := (String.append_right_inj _).1 ((String.append_right_inj _).1 hnames)
  obtain rfl := Access.eq_of_word hwords
  have hsanitized := (String.append_right_inj _).1 ((String.append_right_inj _).1 hwords)
  rw [hname, hname'] at hsanitized
  rw [kind_member, kind_member] at hkinds
  have hsame : r'.kind = r.kind := by
    rcases hkind with hkind | hkind <;> rcases hkind' with hkind' | hkind' <;>
      rw [hkind, hkind'] at hkinds ⊢
    · exact absurd hkinds (by decide)
    · exact absurd hkinds (by decide)
  rw [Resource.id, Resource.id, hsame, hsanitized]
  exact ⟨rfl, rfl⟩

end Dataproc

namespace Aws

variable {region : String}

theorem grantsBy : (provider region).GrantsBy (fun s => [role s]) (policy region) where
  access s bs made h := by
    obtain rfl := of_compute h
    rfl
  kind s q hq access r := by
    obtain rfl := List.mem_singleton.1 hq
    show "aws_iam_role" ≠ "aws_iam_role_policy"
    decide
  depends s access r := dependsOn_policy.2 (.inr rfl)

theorem name_of_uses (h : (provider region).Uses g s access r) :
    Naming.sanitize r.name room '-' = r.name := by
  obtain ⟨x, spec, made, hmade, -, hname⟩ := h.exists_storage
  obtain rfl := Except.ok.inj hmade
  rw [hname, (plays_store region x spec).2]
  exact Naming.sanitize_storage x.address (by decide)

/-- There is room for the name of a storage in the name of a policy to read it. -/
theorem room_le (s : Step) :
    room ≤ policyRoom - (functionName s ++ "-" ++ Access.read.word ++ "-").utf8ByteSize := by
  have hname : (functionName s).utf8ByteSize ≤ 59 := Naming.utf8ByteSize_step s 59
  have hsign : "-".utf8ByteSize = 1 := by decide
  have hword : Access.read.word.utf8ByteSize = 4 := by decide
  rw [String.utf8ByteSize_append, String.utf8ByteSize_append, String.utf8ByteSize_append, hsign, hword]
  unfold room policyRoom
  omega

/-- The name of a policy, in which the name of a storage that is written may be cut. -/
theorem name_policy (region : String) (s : Step) (access : Access) (r : Resource) :
    ∃ rest, (access = .read → rest = room) ∧ (policy region s access r).name =
      functionName s ++ ("-" ++ (access.word ++ ("-" ++ Naming.sanitize r.name rest '-'))) := by
  refine ⟨min (policyRoom - (functionName s ++ "-" ++ access.word ++ "-").utf8ByteSize) room, ?_, ?_⟩
  · rintro rfl
    exact Nat.min_eq_right (room_le s)
  · simp [policy, Resource.plain, String.append_assoc]

/-- **The name of a policy tells the use and the name of the storage**, but not its kind. -/
theorem id_of_policy (hassets : (g.assets.map (·.address)).Nodup)
    (hr : (provider region).Uses g s access r) (hr' : (provider region).Uses g s access' r') :
    (policy region s access' r').id = (policy region s access r).id ↔
      access' = access ∧ r'.name = r.name := by
  constructor
  · intro hid
    have hnames := ((plays_policy region s access' r').of_id (plays_policy region s access r) hid).2
    obtain ⟨rest, hrest, hname⟩ := name_policy region s access r
    obtain ⟨rest', hrest', hname'⟩ := name_policy region s access' r'
    rw [hname, hname'] at hnames
    have hwords := (String.append_right_inj _).1 ((String.append_right_inj _).1 hnames)
    obtain rfl := Access.eq_of_word hwords
    refine ⟨rfl, ?_⟩
    cases access' with
    | read =>
      have hsanitized := (String.append_right_inj _).1 ((String.append_right_inj _).1 hwords)
      rwa [hrest rfl, hrest' rfl, name_of_uses hr, name_of_uses hr'] at hsanitized
    | write => rw [hr.eq_of_write hassets hr']
  · rintro ⟨rfl, hname⟩
    unfold policy
    rw [hname]
    rfl

end Aws

end

/-! ## Graphs of sessions -/

namespace Session

variable {α : Type u} {s : Session α} {terminals : List Asset}

/-- **Which grants a plan holds.**  On Dataproc and on one machine the plan holds the grant of every step
for every storage that it uses.  On AWS this is so exactly for the steps that use no two storages of one
name and of different kinds in the same way.  The steps have to differ in their origins, and digests to
tell apart what is hashed for the graph. -/
theorem grants_of_graph (hs : s.Reachable) (hterminals : ∀ a ∈ terminals, s.Offers (.asset a))
    {g : Graph} (hg : s.graph terminals = .ok g) (horigin : Set.InjOn Step.origin {t | t ∈ g.steps})
    (hdigest : Set.InjOn Naming.digest g.hashed) {t : Step} (ht : t ∈ g.steps) (plan : Plan) :
    (∀ project region, Plan.ofGraph (Dataproc.provider project region) Hooks.none g = .ok plan →
      ∀ access r, (Dataproc.provider project region).Uses g t access r →
        plan.Grants t r (Dataproc.member project t access r)) ∧
    (∀ root, Plan.ofGraph (Machine.provider root) Hooks.none g = .ok plan →
      ∀ access r, (Machine.provider root).Uses g t access r →
        plan.Grants t r (Machine.permission t access r)) ∧
    (∀ region, Plan.ofGraph (Aws.provider region) Hooks.none g = .ok plan →
      ((∀ access r, (Aws.provider region).Uses g t access r →
          plan.Grants t r (Aws.policy region t access r)) ↔
        ∀ access r r', (Aws.provider region).Uses g t access r →
          (Aws.provider region).Uses g t access r' → r'.name = r.name → r'.kind = r.kind)) := by
  obtain ⟨hgsound, hassets, hrender⟩ := renders_of_graph hs hterminals hg hdigest
  refine ⟨fun project region hplan access r hr => ?_, fun root hplan access r hr => ?_,
    fun region hplan => ⟨fun hall access r r' hr hr' hname => ?_, fun hkinds access r hr => ?_⟩⟩
  · have hp := Dataproc.orderly project region
    have hrenders := hrender hp hplan
    refine hrenders.grants hp Dataproc.grantsBy hassets horigin ht ?_ hr
    intro access r access' r' hr hr' hid
    obtain ⟨haccess, hid⟩ := Dataproc.id_of_member hr hr' hid
    exact ⟨haccess, hrenders.eq_of_uses hr hr' hid⟩
  · have hp := Machine.orderly root
    have hrenders := hrender hp hplan
    refine hrenders.grants hp Machine.grantsBy hassets horigin ht ?_ hr
    intro access r access' r' hr hr' hid
    obtain rfl := hrenders.eq_of_uses hr hr' (Machine.id_of_permission hr hr' hid)
    exact ⟨hr'.access_eq hp hgsound hassets hdigest ht hr, rfl⟩
  · have hp := Aws.orderly region
    have hrenders := hrender hp hplan
    have hheld := (hall access r hr).held
    have hheld' := (hall access r' hr').held
    rw [(Aws.id_of_policy hassets hr hr').2 ⟨rfl, hname⟩, hheld] at hheld'
    -- one policy depends on both storages
    have hdepends : r'.id ∈ (Aws.policy region t access r).dependsOn.toList := by
      have hsame := congrArg Resource.dependsOn (Option.some.inj hheld')
      rw [Resource.dependsOn_madeFor, Resource.dependsOn_madeFor] at hsame
      rw [hsame]
      exact Aws.dependsOn_policy.2 (.inr rfl)
    rcases Aws.dependsOn_policy.1 hdepends with hrole | hid
    · obtain ⟨x, hx, -, hr'⟩ := hr'
      exact absurd (((Provider.Gives.storage hx hr').plays hp).eq_of_id (Aws.plays_role t) hrole)
        (by decide)
    · rw [hrenders.eq_of_uses hr hr' hid]
  · have hp := Aws.orderly region
    have hrenders := hrender hp hplan
    refine hrenders.grants hp Aws.grantsBy hassets horigin ht ?_ hr
    intro access r access' r' hr hr' hid
    obtain ⟨rfl, hname⟩ := (Aws.id_of_policy hassets hr hr').1 hid
    refine ⟨rfl, hrenders.eq_of_uses hr hr' ?_⟩
    rw [Resource.id, Resource.id, hkinds access' r r' hr hr' hname, hname]

/-! ## A bucket and a table of one name -/

namespace Twins

/-- Data in a bucket. -/
def bucket : Asset := ⟨⟨"a b", "/x"⟩, none, some (.plain .objectStore), none, 0⟩

/-- Data in a table at the same location, of almost the same name. -/
def table : Asset := ⟨⟨"a-b", "/x"⟩, none, some (.plain .table), none, 1⟩

/-- What is made of both. -/
def out : Asset := ⟨⟨"o", "/o"⟩, none, none, none, 2⟩

/-- A task of two parameters. -/
def meet : Task := .plain "f" ["l", "r"] fun _ => ⟨.ok .empty, false, []⟩

/-- The two handles under the parameters of the task. -/
def sources : List (String × Asset) := [("l", bucket), ("r", table)]

/-- The step that reads both. -/
def step (t : Task) : Step := ⟨1, t, sources, out, false⟩

/-- The session after some steps. -/
def after (steps : List Step) (handle : Asset) : Session Unit :=
  .ofSteps 3 steps [("l", bucket), ("r", table), ("o", handle)]

/-- The session after the step. -/
def session (t : Task) : Session Unit := after [step t] (out.producedBy 1)

/-- The graph behind the output of the step. -/
def graph (t : Task) : Graph := ⟨[out.address], [bucket, table, out], [step t], (step t).links⟩

theorem reachable {t : Task} (ht : t.params = ["l", "r"]) : (session t).Reachable := by
  have hbucket : (ofSteps 1 [] [("l", bucket)]).Reachable :=
    .keep "l" (.declare "a b" "/x" "l" .start)
      (.store (a := { bucket with storage := none }) (.plain .objectStore) (.of_item? "l" rfl))
  have htable : (ofSteps 2 [] [("l", bucket), ("r", table)]).Reachable :=
    .keep "r" (.declare "a-b" "/x" "r" hbucket)
      (.store (a := { table with storage := none }) (.plain .table) (.of_item? "r" rfl))
  have hout : (after [] out).Reachable := .declare "o" "/o" "o" htable
  have hsources : ∀ i ∈ sources, (after [] out).Offers (.asset i.2) := by
    intro i hi
    rcases List.mem_pair.1 hi with rfl | rfl
    · exact .of_item? "l" rfl
    · exact .of_item? "r" rfl
  have hjoin : Join.ofSources sources = .ok ⟨sources, by decide, by decide⟩ := by
    cbv
  have hdraft : Join.transform ⟨sources, by decide, by decide⟩ t = .ok ⟨t, sources⟩ := by
    unfold Join.transform
    rw [ht]
    cbv
  have hput : (after [] out).put ⟨t, sources⟩ out = .ok (out.producedBy 1, after [step t] out) := by
    cbv
  exact .put "o" hout (.joined (.join hsources hjoin) hdraft) (.of_item? "o" rfl) hput

theorem offers (t : Task) : ∀ a ∈ [out.producedBy 1], (session t).Offers (.asset a) := by
  intro a ha
  obtain rfl := List.mem_singleton.1 ha
  exact .of_item? "o" rfl

theorem graph_eq (t : Task) : (session t).graph [out.producedBy 1] = .ok (graph t) := by
  cbv

theorem injOn_digest (t : Task) : Set.InjOn Naming.digest (graph t).hashed := by
  have hnodup : (["/x", "o|/o"].map Naming.digest).Nodup := by
    decide +kernel
  have hhashed : ∀ text ∈ (graph t).hashed, text ∈ ["/x", "o|/o"] := by
    rintro text (⟨x, hx, hstorage, rfl⟩ | ⟨s, hs, rfl⟩)
    · simp only [graph, List.mem_cons, List.not_mem_nil, or_false] at hx
      rcases hx with rfl | rfl | rfl
      · decide
      · decide
      · exact absurd hstorage (by decide)
    · obtain rfl := List.mem_singleton.1 hs
      exact .tail _ (.head _)
  exact fun a ha b hb => List.inj_on_of_nodup_map hnodup (hhashed a ha) (hhashed b hb)

theorem injOn_origin (t : Task) : Set.InjOn Step.origin {s | s ∈ (graph t).steps} := by
  intro s hs s' hs' _
  rw [List.mem_singleton.1 hs, List.mem_singleton.1 hs']

/-- The storage of the data in the bucket. -/
def bucketStore : Resource :=
  (Aws.store "us-east-1" bucket (.plain .objectStore)).madeFor bucket.address.text

/-- The storage of the data in the table. -/
def tableStore : Resource :=
  (Aws.store "us-east-1" table (.plain .table)).madeFor table.address.text

theorem uses_bucket (t : Task) :
    (Aws.provider "us-east-1").Uses (graph t) (step t) .read bucketStore :=
  ⟨bucket, .head _, .head _, rfl⟩

theorem uses_table (t : Task) : (Aws.provider "us-east-1").Uses (graph t) (step t) .read tableStore :=
  ⟨table, .tail _ (.head _), .tail _ (.head _), rfl⟩

/-- The two are named alike. -/
theorem name_tableStore : tableStore.name = bucketStore.name := by
  have hreadable : Naming.sanitize table.address.name (Naming.budget Aws.room) '-' =
      Naming.sanitize bucket.address.name (Naming.budget Aws.room) '-' := by
    decide
  exact congrArg (· ++ '-'.toString ++ Naming.digest "/x") hreadable

/-- The policies on the two have one name. -/
theorem id_policy : (Aws.policy "us-east-1" (step meet) .read tableStore).id =
    (Aws.policy "us-east-1" (step meet) .read bucketStore).id := by
  have hassets : ((graph meet).assets.map (·.address)).Nodup := by
    decide
  exact (Aws.id_of_policy hassets (uses_bucket meet) (uses_table meet)).2 ⟨rfl, name_tableStore⟩

/-- What is put in for the step: its function, its role and the two policies, the one on the table last. -/
theorem pieces?_step : ∃ function : Resource, function.Plays .compute ∧
    (Aws.provider "us-east-1").pieces? (graph meet) (step meet) =
      some ([function, (Aws.role (step meet)).madeFor (step meet).origin,
        (Aws.policy "us-east-1" (step meet) .read bucketStore).madeFor (step meet).origin] ++
        [(Aws.policy "us-east-1" (step meet) .read tableStore).madeFor (step meet).origin]) := by
  have hmade : (Aws.provider "us-east-1").runner? (graph meet) (step meet) =
      some ⟨Aws.function "us-east-1" (step meet), [Aws.role (step meet),
        Aws.policy "us-east-1" (step meet) .read bucketStore,
        Aws.policy "us-east-1" (step meet) .read tableStore]⟩ := by
    rfl
  have hplays := (Provider.Gives.compute (.head _) hmade).plays (Aws.orderly "us-east-1")
  exact ⟨_, hplays, Provider.pieces?_eq_some_iff.2 ⟨_, [], [], hmade, rfl, rfl, rfl⟩⟩

/-- There is a plan, and no access resource in it depends on the bucket. -/
theorem exists_plan : ∃ plan, Plan.ofGraph (Aws.provider "us-east-1") Hooks.none (graph meet) =
    .ok plan ∧ ∀ q ∈ plan.toList, q.Plays .access → bucketStore.id ∉ q.dependsOn.toList := by
  have hp := Aws.orderly "us-east-1"
  have haccepts : (Aws.provider "us-east-1").Accepts (graph meet) := by
    decide
  obtain ⟨hg, hassets⟩ := addresses_of_graph (reachable (t := meet) rfl) (offers meet) (graph_eq meet)
  obtain ⟨plan, hplan⟩ := (Plan.exists_ofGraph_iff hp hg hassets (injOn_digest meet)
    (Aws.selfContained _)).2 haccepts
  refine ⟨plan, hplan, fun q hq hplays hbucket => ?_⟩
  obtain ⟨⟨id, q⟩, hentry, rfl⟩ := List.mem_map.1 hq
  have hget : plan.get? id = some q := Index.find?_eq_some_iff.2 hentry
  rcases (Plan.get?_eq_some_iff hp hg hassets (injOn_digest meet) hplan).1 hget with ⟨-, a, hr⟩ | hlast
  · obtain ⟨x, hx, -, hr⟩ := Provider.exists_of_storedAt? hr
    exact absurd (((Provider.Gives.storage hx hr).plays hp).unique hplays) (by decide)
  · obtain ⟨function, hfunction, hpieces⟩ := pieces?_step
    obtain ⟨t, ht, rs, hrs, hmem, hid⟩ := Provider.exists_of_lastPiece? hlast
    obtain rfl := List.mem_singleton.1 ht
    obtain rfl := Option.some.inj (hpieces.symm.trans hrs)
    simp only [List.cons_append, List.nil_append, List.mem_cons, List.not_mem_nil, or_false] at hmem
    rcases hmem with rfl | rfl | hmem
    · exact absurd (hfunction.unique hplays) (by decide)
    · exact absurd hbucket List.not_mem_nil
    · -- the plan shows the policy on the table, also under the name of the one on the bucket
      have htable : q = (Aws.policy "us-east-1" (step meet) .read tableStore).madeFor
          (step meet).origin := by
        rcases hmem with hq | hq
        · rw [hq, Resource.id_madeFor, ← id_policy] at hid
          rw [← hid] at hlast
          exact Option.some.inj (hlast.symm.trans
            (@Provider.lastPiece?_append_singleton _ _ _ _ [] _ hpieces))
        · exact hq
      subst htable
      rcases Aws.dependsOn_policy.1 hbucket with hrole | htable
      · exact absurd hrole (by decide)
      · exact absurd htable (by decide)

end Twins

/-- The step that reads a bucket and a table of one name does not have both policies. -/
theorem grants_of_graph_twins : ∃ plan,
    Plan.ofGraph (Aws.provider "us-east-1") Hooks.none (Twins.graph Twins.meet) = .ok plan ∧
    ¬ ∀ access r,
      (Aws.provider "us-east-1").Uses (Twins.graph Twins.meet) (Twins.step Twins.meet) access r →
        plan.Grants (Twins.step Twins.meet) r
          (Aws.policy "us-east-1" (Twins.step Twins.meet) access r) := by
  obtain ⟨plan, hplan, -⟩ := Twins.exists_plan
  obtain ⟨-, -, haws⟩ := grants_of_graph (Twins.reachable (t := Twins.meet) rfl) (Twins.offers _)
    (Twins.graph_eq _) (Twins.injOn_origin _) (Twins.injOn_digest _) (.head _) plan
  refine ⟨plan, hplan, fun hall => ?_⟩
  have hkinds := (haws "us-east-1" hplan).1 hall .read _ _ (Twins.uses_bucket _) (Twins.uses_table _)
    Twins.name_tableStore
  exact absurd hkinds (by decide)

/-- **On AWS a grant can be lost.**  A step that reads a bucket and a table, which are named alike, is left
with the policy on the table: no access resource in the plan depends on the bucket. -/
theorem exists_lost_grant :
    let s := Twins.session Twins.meet
    let g := Twins.graph Twins.meet
    s.Reachable ∧ (∀ a ∈ [Twins.out.producedBy 1], s.Offers (.asset a)) ∧
      s.graph [Twins.out.producedBy 1] = .ok g ∧ Set.InjOn Naming.digest g.hashed ∧
      ∃ plan, Plan.ofGraph (Aws.provider "us-east-1") Hooks.none g = .ok plan ∧
        ∃ r, (Aws.provider "us-east-1").Uses g (Twins.step Twins.meet) .read r ∧
          ∀ q ∈ plan.toList, q.Plays .access → r.id ∉ q.dependsOn.toList := by
  obtain ⟨plan, hplan, hlost⟩ := Twins.exists_plan
  exact ⟨Twins.reachable rfl, Twins.offers _, Twins.graph_eq _, Twins.injOn_digest _, plan, hplan, _,
    Twins.uses_bucket _, hlost⟩

end Session

end Provenance
