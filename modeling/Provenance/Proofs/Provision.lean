import Provenance.Proofs.Infra.Levels

/-!
# Plans can be carried out

A plan is carried out resource by resource, each after those that it depends on.  For that to be possible
nothing may be missing, and nothing may depend on itself, however indirectly.

* `Plan.closed_of_ofGraph`: **nothing is missing**, whatever hooks do to the resources, as long as they add
  no dependency.
* `Session.exists_order_of_plan`: **the plan of a graph has no cycle**, and its resources can be put into an
  order in which each comes after all that it depends on.
-/

namespace Provenance

universe u

/-! ## Nothing is missing -/

/-- **No plan lacks anything.**  Whatever hooks do to the resources of storage and of steps, as long as they
add no dependency: none of the four providers fails on a graph because a dependency is missing, and in a
plan that it makes every dependency of every resource is the name of a resource. -/
theorem Plan.closed_of_ofGraph {p : Provider} (hp : p.Standard) {h : Hooks} (hh : h.KeepDependencies)
    (g : Graph) :
    (∀ origin missing dependent name, Plan.ofGraph p h g ≠
      .error (.compilation origin (.dependency missing dependent) name)) ∧
    ∀ plan, Plan.ofGraph p h g = .ok plan → ∀ id r, plan.get? id = some r →
      ∀ d ∈ r.dependsOn.toList, d ∈ plan.ids := by
  have hends := Plan.ends_ofGraph hp hh g
  refine ⟨fun origin missing dependent name heq => ?_, fun plan hplan => ?_⟩
  · rw [heq] at hends
    exact hends trivial
  · rwa [hplan] at hends

namespace Session.Late

/-- The table under another kind and another name. -/
def mirrored (r : Resource) : Resource := { r with kind := "mirror", name := "lake" }

/-- What fills the table, under another name and of another origin; it depends on the table alone. -/
def reporting (r : Resource) : Resource :=
  { r with
    name := "reporter"
    origin := "elsewhere"
    dependsOn := .ofList (r.dependsOn.toList.filter (· = "mirror.lake")) }

/-- Changes to the table and to what fills it. -/
def moved : Hooks := ⟨[(table.address, mirrored)], [(table.address, reporting)]⟩

theorem keepDependencies_moved : moved.KeepDependencies := by
  intro change hchange r d hd
  simp only [moved, List.cons_append, List.nil_append, List.mem_cons, List.not_mem_nil,
    or_false] at hchange
  rcases hchange with rfl | rfl
  · exact hd
  · exact List.mem_of_mem_filter (KeySet.mem_toList_ofList.1 hd)

end Session.Late

/-- The plan with the changes is made, and what fills the table depends on it under the new names. -/
theorem Plan.closed_of_ofGraph_moved : ∃ plan,
    Plan.ofGraph (Aws.provider "us-east-1") Session.Late.moved (Session.Late.tableGraph Session.Late.daily) =
      .ok plan ∧
    ("aws_lambda_function.reporter", "mirror.lake") ∈ plan.edges ∧
    ∀ id r, plan.get? id = some r → ∀ d ∈ r.dependsOn.toList, d ∈ plan.ids := by
  have hmade : (Plan.ofGraph (Aws.provider "us-east-1") Session.Late.moved
      (Session.Late.tableGraph Session.Late.daily)).toOption.any
        (("aws_lambda_function.reporter", "mirror.lake") ∈ ·.edges) = true := by
    decide +kernel
  obtain ⟨plan, hplan, hedge⟩ := exists_ok_of_any hmade
  exact ⟨plan, hplan, of_decide_eq_true hedge, (Plan.closed_of_ofGraph (.aws "us-east-1")
    Session.Late.keepDependencies_moved (Session.Late.tableGraph Session.Late.daily)).2 plan hplan⟩

/-! ## Nothing depends on itself -/

namespace Session

variable {α : Type u} {s : Session α} {terminals : List Asset}

/-- **The plan of a graph has no cycle.**  Whenever one of the four providers makes a plan of a graph that
is built, and digests tell apart what is hashed for the graph, no resource depends on itself over any number
of edges; so the resources can be put into an order in which each comes after all that it depends on. -/
theorem exists_order_of_plan (hs : s.Reachable) (hterminals : ∀ a ∈ terminals, s.Offers (.asset a))
    {g : Graph} (hg : s.graph terminals = .ok g) {p : Provider} (hp : p.Standard)
    (hdigest : Set.InjOn Naming.digest g.hashed) {plan : Plan}
    (hplan : Plan.ofGraph p Hooks.none g = .ok plan) :
    (∀ id, ¬ Relation.TransGen (fun a b => (a, b) ∈ plan.edges) id id) ∧
    ∃ order : List ResourceId, order.Perm plan.ids ∧ ∀ before id after,
      order = before ++ id :: after → ∀ d, (id, d) ∈ plan.edges → d ∈ before := by
  obtain ⟨hgsound, hassets, hrender⟩ := renders_of_graph hs hterminals hg hdigest
  have hrenders := hrender hp.orderly hplan
  have hends := Plan.ends_ofGraph hp Hooks.keepDependencies_none g
  rw [hplan] at hends
  have hclosed : ∀ e ∈ plan.edges, e.2 ∈ plan.ids := by
    rintro ⟨id, d⟩ hedge
    obtain ⟨r, hr, hd⟩ := Plan.mem_edges_iff.1 hedge
    exact hends id r hr d hd
  have hlevel := hrenders.level_lt hp hgsound hassets hdigest hclosed
  exact ⟨Plan.not_transGen_of_level hlevel, Plan.exists_order_of_level hlevel hclosed⟩

/-- The plan of the daily table is put in order: the function that fills the table comes after the one that
it waits for. -/
theorem exists_order_of_plan_daily : ∃ plan order before after,
    Plan.ofGraph (Aws.provider "us-east-1") Hooks.none (Late.tableGraph Late.daily) = .ok plan ∧
    ("aws_lambda_function.copy-report-98532fcb", "aws_lambda_function.copy-clean-5601d097") ∈ plan.edges ∧
    order.Perm plan.ids ∧ order = before ++ "aws_lambda_function.copy-report-98532fcb" :: after ∧
    "aws_lambda_function.copy-clean-5601d097" ∈ before ∧
    ¬ Relation.TransGen (fun a b => (a, b) ∈ plan.edges) "aws_lambda_function.copy-report-98532fcb"
      "aws_lambda_function.copy-report-98532fcb" := by
  have hmade : (Plan.ofGraph (Aws.provider "us-east-1") Hooks.none
      (Late.tableGraph Late.daily)).toOption.any
        (("aws_lambda_function.copy-report-98532fcb", "aws_lambda_function.copy-clean-5601d097") ∈
          ·.edges) = true := by
    decide +kernel
  obtain ⟨plan, hplan, hedge⟩ := exists_ok_of_any hmade
  have hedge := of_decide_eq_true hedge
  obtain ⟨hcycle, order, hperm, horder⟩ := exists_order_of_plan (Late.reachable (t := Late.daily) rfl)
    (Late.offers_table Late.daily) (Late.tableGraph_eq Late.daily) (.aws "us-east-1")
    Late.injOn_digest hplan
  obtain ⟨r, hr, -⟩ := Plan.mem_edges_iff.1 hedge
  obtain ⟨before, after, hsplit⟩ := List.append_of_mem (hperm.mem_iff.2 (Plan.mem_ids_iff.2 ⟨r, hr⟩))
  exact ⟨plan, order, before, after, hplan, hedge, hperm, hsplit, horder _ _ _ hsplit _ hedge, hcycle _⟩

end Session

end Provenance
