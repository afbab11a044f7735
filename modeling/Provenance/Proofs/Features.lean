import Provenance.Proofs.Infra.Requests
import Provenance.Proofs.Plans

/-!
# Which graphs a provider can express

Where no two resources of different origins have one name, a provider makes a plan of a graph exactly if the
graph asks for nothing that the provider lacks and no duration overflows, and says so otherwise.  This holds
of the four providers, and of every provider that leaves schedules and monitoring to the defaults.  Only AWS
has durations that can overflow.

Nothing is assumed of digests here, nor that the graph is compiled at all: what goes wrong first is a matter
of the order of the steps, and storage that no step touches comes last.

* `Session.meets_plan_of_graph`: what a plan says of its graph, and what a fault says.
* `Session.exists_plan_iff_fits`: **a plan is made exactly of the graphs that fit and are in range**, and
  what is refused is asked for by an asset or a step of the graph.
* `Session.exists_fits_of_overflow`: a graph that fits, of which AWS makes no plan.
-/

namespace Provenance

universe u

namespace Session

variable {α : Type u} {s : Session α} {terminals : List Asset}

/-- A plan is made of graphs that fit and are in range, and a fault refuses something or is an overflow. -/
theorem meets_plan_of_graph (hs : s.Reachable) (hterminals : ∀ a ∈ terminals, s.Offers (.asset a))
    {g : Graph} (hg : s.graph terminals = .ok g) {p : Provider} {gaps : Provider.Gaps}
    (hp : p.Lacking gaps) (hnames : p.Unambiguous g) :
    Meets (p.Refuses gaps g) (fun _ => g.Fits gaps.lacks ∧ g.InRange gaps.overflows)
      (Plan.ofGraph p Hooks.none g) := by
  obtain ⟨-, hassets⟩ := addresses_of_graph hs hterminals hg
  have hmeets := Compilation.meets_ofGraph hnames hp.judges hp.nominal (hp.pointless g) hassets
  have hends := Compilation.ends_ofGraph hp.frugal Hooks.keepDependencies_none g
  unfold Plan.ofGraph
  cases hrun : Compilation.ofGraph p Hooks.none g with
  | ok c =>
    rw [hrun] at hmeets
    exact hmeets
  | error fault =>
    rw [hrun] at hmeets hends
    -- what is missing is not a dependency
    exact hmeets.resolve_right hends

/-- **A plan is made exactly of the graphs that fit and are in range.**  Take a graph that is built, and a
provider, of the four or with the defaults, that makes no two resources of one name and different origins of
it.  The provider makes a plan of the graph if and only if the graph asks for nothing that it lacks and no
step has a limit whose milliseconds overflow, which only AWS computes.  Otherwise it refuses, in its own
name, something that it lacks and that some asset or some step asks for, and names that asset or that step;
or it panics, and some step has such a limit. -/
theorem exists_plan_iff_fits (hs : s.Reachable) (hterminals : ∀ a ∈ terminals, s.Offers (.asset a))
    {g : Graph} (hg : s.graph terminals = .ok g) {p : Provider} {gaps : Provider.Gaps}
    (hp : p.Lacking gaps) (hnames : p.Unambiguous g) :
    ((∃ plan, Plan.ofGraph p Hooks.none g = .ok plan) ↔
      g.Fits gaps.lacks ∧ g.InRange gaps.overflows) ∧
    ∀ fault, Plan.ofGraph p Hooks.none g = .error fault →
      (∃ e ∈ g.requests, gaps.lacks e.2 = true ∧ fault = .compilation e.1 e.2 p.name) ∨
        fault = .overflow ∧ ∃ t ∈ g.steps, t.task.monitoring.any gaps.overflows = true := by
  have hmeets := meets_plan_of_graph hs hterminals hg hp hnames
  cases hplan : Plan.ofGraph p Hooks.none g with
  | ok plan =>
    rw [hplan] at hmeets
    exact ⟨⟨fun _ => hmeets, fun _ => ⟨plan, rfl⟩⟩, fun fault hfault => absurd hfault (by simp)⟩
  | error fault =>
    rw [hplan] at hmeets
    refine ⟨⟨fun ⟨plan, h⟩ => absurd h (by simp), fun ⟨hfits, hrange⟩ => ?_⟩, ?_⟩
    · rcases hmeets with ⟨e, he, hlacks, -⟩ | ⟨-, t, ht, hover⟩
      · exact absurd (hfits e he) (by simp [hlacks])
      · exact absurd (hrange t ht) (by simp [hover])
    · rintro _ hfault
      obtain rfl := Except.error.inj hfault
      exact hmeets

/-- AWS makes a plan of the daily table.  One machine and a provider with the defaults refuse it, since they
have no schedules. -/
theorem exists_plan_iff_fits_daily :
    (∃ plan, Plan.ofGraph (Aws.provider "us-east-1") Hooks.none (Late.tableGraph Late.daily) = .ok plan) ∧
    (¬ ∃ plan, Plan.ofGraph (Machine.provider "/srv") Hooks.none (Late.tableGraph Late.daily) = .ok plan) ∧
    ¬ ∃ plan, Plan.ofGraph Provider.basic Hooks.none (Late.tableGraph Late.daily) = .ok plan := by
  have hs := Late.reachable (t := Late.daily) rfl
  have hterminals := Late.offers_table Late.daily
  have hg := Late.tableGraph_eq Late.daily
  have haws := exists_plan_iff_fits hs hterminals hg (.aws "us-east-1")
    (Provider.unambiguous_of_given (by decide))
  have hmachine := exists_plan_iff_fits hs hterminals hg (.machine "/srv")
    (Provider.unambiguous_of_given (by decide))
  have hbasic := exists_plan_iff_fits hs hterminals hg (.plain Provider.plain_basic)
    (Provider.unambiguous_of_given (by decide))
  refine ⟨haws.1.2 (by decide), fun hplan => ?_, fun hplan => ?_⟩
  · exact absurd (hmachine.1.1 hplan).1 (by decide)
  · exact absurd (hbasic.1.1 hplan).1 (by decide)

/-- A client gives a task a limit of half a billion years.  The graph asks for nothing that AWS lacks, and
its resources have names of their own, yet AWS makes no plan of it. -/
theorem exists_fits_of_overflow : ∃ (s : Session Unit) (terminals : List Asset) (g : Graph), s.Reachable ∧
    (∀ a ∈ terminals, s.Offers (.asset a)) ∧ s.graph terminals = .ok g ∧
    (Aws.provider "us-east-1").Unambiguous g ∧ g.Fits Aws.lacks ∧
    (¬ ∃ plan, Plan.ofGraph (Aws.provider "us-east-1") Hooks.none g = .ok plan) ∧
    Plan.ofGraph (Aws.provider "us-east-1") Hooks.none g = .error .overflow := by
  have hs := Late.reachable (t := Late.lasting) rfl
  have hterminals := Late.offers Late.lasting
  have hg := Late.graph_eq Late.lasting
  have hnames : (Aws.provider "us-east-1").Unambiguous (Late.graph Late.lasting) :=
    Provider.unambiguous_of_given (by decide)
  have hfits : (Late.graph Late.lasting).Fits Aws.lacks := by decide
  have hmeets := meets_plan_of_graph hs hterminals hg (.aws "us-east-1") hnames
  have hpanic : Plan.ofGraph (Aws.provider "us-east-1") Hooks.none (Late.graph Late.lasting) =
      .error .overflow := by
    cases hplan : Plan.ofGraph (Aws.provider "us-east-1") Hooks.none (Late.graph Late.lasting) with
    | ok plan =>
      rw [hplan] at hmeets
      exact absurd hmeets.2 (by decide)
    | error fault =>
      rw [hplan] at hmeets
      rcases hmeets with ⟨e, he, hlacks, -⟩ | ⟨rfl, -⟩
      · exact absurd ((hfits e he).symm.trans hlacks) Bool.false_ne_true
      · rfl
  refine ⟨_, _, _, hs, hterminals, hg, hnames, hfits, ?_, hpanic⟩
  rintro ⟨plan, hplan⟩
  exact absurd (hpanic.symm.trans hplan) (by simp)

end Session

end Provenance
