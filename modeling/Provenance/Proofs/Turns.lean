import Mathlib.Data.List.Chain
import Provenance.Proofs.Lineage

/-!
# The turns of the walks

A graph is built by three walks: over the handles behind the terminals, over the addresses that the
producers settled on lead to, and depth first in search of a closed walk.  Each of them is the loop of
some `turn`, and comes to an end after a number of turns that is known before (`Loop.Computes`,
`Session.walks_end`).  Nothing is asked of the handles: overrides may make declarations depend on each
other in a circle, and the measure counts what was not walked yet, not how far the terminals reach.

* The worklist of handles is fed with the inputs of a step only when the step is put down as expanded,
  and no step is put down twice (`Survey.Feeds`).
* The search is a recursion.  As a loop it keeps the visits that are not over on a stack
  (`Walk.Search`); leaving a visit goes on with the one around it (`Walk.resume`).  No address has two
  visits on the stack.
-/

namespace Provenance

universe u v

/-! ## Loops -/

namespace Loop

/-- What a turn of a loop comes to: one more turn, or an answer. -/
inductive Turn (σ : Type u) (ρ : Type v) where
  | again (next : σ)
  | leave (answer : ρ)

variable {σ : Type u} {ρ : Type v}

/-- A run of a loop: the states that it goes through, from the first one on, and its answer. -/
inductive Runs (turn : σ → Turn σ ρ) : σ → List σ → ρ → Prop
  | leave {s : σ} {answer : ρ} : turn s = .leave answer → Runs turn s [s] answer
  | again {s t : σ} {run : List σ} {answer : ρ} : turn s = .again t → Runs turn t run answer →
      Runs turn s (s :: run) answer

/-- A turn fits a function and a measure: it leaves the loop with what the function gives, or goes on to a
state for which the function gives the same and the measure is smaller. -/
def Turn.Fits (f : σ → ρ) (measure : σ → ℕ) (s : σ) : Turn σ ρ → Prop
  | .leave answer => f s = answer
  | .again t => f s = f t ∧ measure t < measure s

/-- A function gives the answers of a loop, whose turns make a measure smaller. -/
def Computes (turn : σ → Turn σ ρ) (f : σ → ρ) (measure : σ → ℕ) : Prop :=
  ∀ s, (turn s).Fits f measure s

section

variable {turn : σ → Turn σ ρ} {f : σ → ρ} {measure : σ → ℕ}

/-- **A loop with a measure ends**, after no more turns than the measure of its first state allows. -/
theorem Computes.exists_runs (h : Computes turn f measure) (s : σ) :
    ∃ run, Runs turn s run (f s) ∧ run.length ≤ measure s + 1 := by
  have hs := h s
  cases hturn : turn s with
  | leave answer =>
    rw [hturn] at hs
    exact ⟨[s], .leave (hturn.trans (congrArg Turn.leave hs.symm)), Nat.le_add_left 1 _⟩
  | again t =>
    rw [hturn] at hs
    obtain ⟨hf, hlt⟩ := hs
    obtain ⟨run, hrun, hlength⟩ := h.exists_runs t
    rw [hf]
    exact ⟨s :: run, .again hturn hrun, Nat.succ_le_succ (hlength.trans hlt)⟩
termination_by measure s

theorem Runs.head?_eq {s : σ} {run : List σ} {answer : ρ} (h : Runs turn s run answer) :
    run.head? = some s := by
  cases h with
  | leave _ => rfl
  | again _ _ => rfl

/-- The states of a run are joined by turns. -/
theorem Runs.isChain {s : σ} {run : List σ} {answer : ρ} (h : Runs turn s run answer) :
    run.IsChain fun x y => turn x = .again y := by
  induction h with
  | leave _ => exact .singleton _
  | again hturn hrun ih =>
    refine ih.cons fun y hy => ?_
    rw [hrun.head?_eq] at hy
    rwa [← Option.some.inj hy]

/-- What every turn keeps holds throughout a run. -/
theorem Runs.forall_mem {P : σ → Prop} (hP : ∀ s t, P s → turn s = .again t → P t) {s : σ} {run : List σ}
    {answer : ρ} (h : Runs turn s run answer) (hs : P s) : ∀ t ∈ run, P t := by
  induction h with
  | leave _ => exact List.forall_mem_singleton.2 hs
  | again hturn _ ih => exact List.forall_mem_cons.2 ⟨hs, ih (hP _ _ hs hturn)⟩

end

end Loop

open Loop (Turn Runs Computes)

/-! ## Walks along a table -/

namespace Walk

variable {κ : Type u} [DecidableEq κ] {table : List (κ × List κ)}

/-- One turn of collecting: a key that was not seen is replaced by the places that it leads to. -/
def collect (table : List (κ × List κ)) : List κ × List κ → Turn (List κ × List κ) (List κ)
  | (seen, []) => .leave seen
  | (seen, k :: work) =>
    if k ∈ seen then .again (seen, work) else .again (k :: seen, (table.lookup k).getD [] ++ work)

/-- Expanding a key that was not expanded takes its places off what is pending. -/
theorem length_add_pending_le (table : List (κ × List κ)) {seen : List κ} {k : κ} (hk : k ∉ seen) :
    ((table.lookup k).getD []).length + pending table (k :: seen) ≤ pending table seen := by
  cases hplaces : table.lookup k with
  | none =>
    rw [Option.getD_none, List.length_nil, Nat.zero_add]
    exact pending_cons_le table seen k
  | some places =>
    rw [Option.getD_some, Nat.add_comm]
    exact pending_add_length_le (mem_of_lookup hplaces) hk

theorem pending_nil {β : Type v} (table : List (κ × List β)) : pending table [] = places table := by
  unfold pending unseen
  rw [List.filter_eq_self.2 fun e _ => decide_eq_true List.not_mem_nil]

theorem pending_perm (table : List (κ × List κ)) {seen seen' : List κ} (h : seen.Perm seen') :
    pending table seen = pending table seen' := by
  unfold pending unseen
  simp only [h.mem_iff]

/-- Collecting as a loop. -/
theorem computes_reach (table : List (κ × List κ)) : Computes (collect table)
    (fun x => reach table x.1 x.2) fun x => x.2.length + pending table x.1 := by
  intro x
  fun_cases collect table x with
  | case1 seen => exact reach.eq_1 table seen
  | case2 seen k work hk =>
    refine ⟨?_, Nat.add_lt_add_right (Nat.lt_succ_self _) _⟩
    dsimp only
    rw [reach, if_pos hk]
  | case3 seen k work hk =>
    have hpending := length_add_pending_le table hk
    refine ⟨?_, ?_⟩
    · dsimp only
      rw [reach, if_neg hk]
      cases table.lookup k with
      | none => rfl
      | some places => rfl
    · dsimp only
      rw [List.length_append, List.length_cons]
      omega

/-- A search for a closed walk in progress: the keys whose visits are not over, the last one first, each
with the keys to be visited after it, then the keys that lead to no closed walk, and the keys to be
visited next. -/
structure Search (κ : Type u) where
  active : List (κ × List κ)
  safe : List κ
  work : List κ

/-- The keys whose visits are not over. -/
def Search.path (x : Search κ) : List κ := x.active.map (·.1)

/-- One turn of the search: a visit begins unless its key is safe, or ends when its places are visited.
A key whose visit is not over closes a walk. -/
def search (table : List (κ × List κ)) : Search κ → Turn (Search κ) (Except (List κ) (List κ))
  | ⟨[], safe, []⟩ => .leave (.ok safe)
  | ⟨(k, rest) :: active, safe, []⟩ => .again ⟨active, k :: safe, rest⟩
  | ⟨active, safe, k :: rest⟩ =>
    if k ∈ safe then .again ⟨active, safe, rest⟩
    else if k ∈ active.map (·.1) then
      .leave (.error (((active.map (·.1)).takeWhile (· ≠ k) ++ [k]).reverse ++ [k]))
    else .again ⟨(k, rest) :: active, safe, (table.lookup k).getD []⟩

/-- What a search comes to when the innermost visit has come to a result: a closed walk is handed on, and
else the visit around it goes on. -/
def resume (table : List (κ × List κ)) :
    List (κ × List κ) → Except (List κ) (List κ) → Except (List κ) (List κ)
  | [], result => result
  | _ :: _, .error walk => .error walk
  | (k, rest) :: active, .ok safe =>
    resume table active (cycleFrom table (active.map (·.1)) (k :: safe) rest)

theorem resume_error (active : List (κ × List κ)) (walk : List κ) :
    resume table active (.error walk) = .error walk := by
  cases active with
  | nil => rfl
  | cons e active => rfl

/-- How many turns a search can still take: two for each key that is on a worklist or that an expansion
can put there, one for each visit that is to end. -/
def Search.left (table : List (κ × List κ)) (x : Search κ) : ℕ :=
  2 * (x.work.length + (x.active.map (·.2.length)).sum + pending table (x.path ++ x.safe)) +
    x.active.length

/-- The search as a loop. -/
theorem computes_cycleFrom (table : List (κ × List κ)) : Computes (search table)
    (fun x => resume table x.active (cycleFrom table x.path x.safe x.work)) (Search.left table) := by
  intro x
  fun_cases search table x with
  | case1 safe =>
    show resume table [] (cycleFrom table [] safe []) = .ok safe
    rw [cycleFrom, resume]
  | case2 k rest active safe =>
    refine ⟨?_, ?_⟩
    · show resume table ((k, rest) :: active) (cycleFrom table (k :: active.map (·.1)) safe []) =
        resume table active (cycleFrom table (active.map (·.1)) (k :: safe) rest)
      rw [cycleFrom, resume]
    · -- the key changes from the path to the safe keys, so what is pending stays the same
      have hpending : pending table (active.map (·.1) ++ k :: safe) =
          pending table (k :: (active.map (·.1) ++ safe)) := pending_perm table List.perm_middle
      simp only [Search.left, Search.path, List.map_cons, List.cons_append, List.sum_cons,
        List.length_cons, List.length_nil, hpending]
      omega
  | case3 active safe k rest hsafe =>
    refine ⟨?_, ?_⟩
    · show resume table active (cycleFrom table (active.map (·.1)) safe (k :: rest)) =
        resume table active (cycleFrom table (active.map (·.1)) safe rest)
      rw [cycleFrom, if_pos hsafe]
    · simp only [Search.left, Search.path, List.length_cons]
      omega
  | case4 active safe k rest hsafe hpath =>
    show resume table active (cycleFrom table (active.map (·.1)) safe (k :: rest)) = _
    rw [cycleFrom, if_neg hsafe, if_pos hpath, resume_error]
  | case5 active safe k rest hsafe hpath =>
    refine ⟨?_, ?_⟩
    · show resume table active (cycleFrom table (active.map (·.1)) safe (k :: rest)) =
        resume table ((k, rest) :: active)
          (cycleFrom table (k :: active.map (·.1)) safe ((table.lookup k).getD []))
      rw [cycleFrom, if_neg hsafe, if_neg hpath]
      split
      · -- a key that the table does not list has a visit without places, which is over at once
        rename_i hnone
        rw [hnone, Option.getD_none, cycleFrom, resume]
      · rename_i places hsome
        rw [hsome, Option.getD_some]
        cases cycleFrom table (k :: active.map (·.1)) safe places with
        | error walk => rw [resume_error, resume]
        | ok safe => rw [resume]
    · have hfresh : k ∉ active.map (·.1) ++ safe := fun hk => (List.mem_append.1 hk).elim hpath hsafe
      have hpending := length_add_pending_le table hfresh
      simp only [Search.left, Search.path, List.map_cons, List.cons_append, List.sum_cons,
        List.length_cons]
      omega

/-- A visit begins only where no visit of its key is on the way. -/
theorem nodup_path_of_search {x y : Search κ} (hx : x.path.Nodup) (h : search table x = .again y) :
    y.path.Nodup := by
  revert h
  fun_cases search table x with
  | case1 safe => exact fun h => absurd h (by simp)
  | case2 k rest active safe =>
    intro h
    rw [← Turn.again.inj h]
    exact (List.nodup_cons.1 hx).2
  | case3 active safe k rest hsafe =>
    intro h
    rw [← Turn.again.inj h]
    exact hx
  | case4 active safe k rest hsafe hpath => exact fun h => absurd h (by simp)
  | case5 active safe k rest hsafe hpath =>
    intro h
    rw [← Turn.again.inj h]
    exact List.nodup_cons.2 ⟨hpath, hx⟩

/-- **Collecting ends.**  Each turn takes a key off the worklist, and each entry of the table is put there
at most once. -/
theorem exists_runs_reach (table : List (κ × List κ)) (work : List κ) :
    ∃ run, Runs (collect table) ([], work) run (reach table [] work) ∧
      run.length ≤ work.length + places table + 1 := by
  obtain ⟨run, hrun, hlength⟩ := (computes_reach table).exists_runs ([], work)
  exact ⟨run, hrun, by rwa [pending_nil] at hlength⟩

/-- **The search for a closed walk ends**, and on its way no key has two visits that are not over. -/
theorem exists_runs_cycleFrom (table : List (κ × List κ)) (work : List κ) :
    ∃ run, Runs (search table) ⟨[], [], work⟩ run (cycleFrom table [] [] work) ∧
      run.length ≤ 2 * (work.length + places table) + 1 ∧ ∀ x ∈ run, x.path.Nodup := by
  obtain ⟨run, hrun, hlength⟩ := (computes_cycleFrom table).exists_runs ⟨[], [], work⟩
  refine ⟨run, hrun, ?_, hrun.forall_mem (fun x y => nodup_path_of_search) List.nodup_nil⟩
  have hleft : Search.left table ⟨[], [], work⟩ = 2 * (work.length + places table) := by
    show 2 * (work.length + 0 + pending table []) + 0 = _
    rw [pending_nil, Nat.add_zero, Nat.add_zero]
  rwa [hleft] at hlength

end Walk

/-! ## Following handles -/

namespace Survey

variable {c : Catalog} {alive : List StepId}

/-- One turn of following: a handle is taken off the worklist and its producer contests the address. -/
def turn (c : Catalog) (alive : List StepId) :
    Survey × List Asset → Turn (Survey × List Asset) (Except Fault Survey)
  | (v, []) => .leave (.ok v)
  | (v, a :: work) =>
    let handles := merge a v.handles
    match c.producer? alive a with
    | none => .again ({ v with handles }, work)
    | some s =>
      match contest a.address (v.producers.lookup a.address) s with
      | .error fault => .leave (.error fault)
      | .ok false => .again ({ v with handles }, work)
      | .ok true =>
        let producers := assign a.address s v.producers
        if s.id ∈ v.expanded then .again ({ v with handles, producers }, work)
        else .again (⟨handles, producers, s.id :: v.expanded⟩, s.inputs.map (·.2) ++ work)

/-- How the worklist goes on: without the handle that was first, and if that has brought a step which was
not expanded before, with the inputs of the step in its place. -/
inductive Feeds (c : Catalog) : Survey × List Asset → Survey × List Asset → Prop
  | skip {v v' : Survey} {a : Asset} {work : List Asset} : v'.expanded = v.expanded →
      Feeds c (v, a :: work) (v', work)
  | expand {v v' : Survey} {a : Asset} {work : List Asset} {s : Step} : s ∈ c.steps →
      s.id ∉ v.expanded → v'.expanded = s.id :: v.expanded →
      Feeds c (v, a :: work) (v', s.inputs.map (·.2) ++ work)

theorem feeds_of_turn {x y : Survey × List Asset} (h : turn c alive x = .again y) : Feeds c x y := by
  revert h
  fun_cases turn c alive x with
  | case1 v => exact fun h => absurd h (by simp)
  | case2 v a work handles hnone =>
    intro h
    rw [← Turn.again.inj h]
    exact .skip rfl
  | case3 v a work s hs fault hfault => exact fun h => absurd h (by simp)
  | case4 v a work handles s hs hlost =>
    intro h
    rw [← Turn.again.inj h]
    exact .skip rfl
  | case5 v a work handles s hs hwon producers hold =>
    intro h
    rw [← Turn.again.inj h]
    exact .skip rfl
  | case6 v a work handles s hs hwon producers hfresh =>
    intro h
    rw [← Turn.again.inj h]
    exact .expand (Catalog.mem_of_producer? hs) hfresh rfl

theorem Feeds.nodup {x y : Survey × List Asset} (h : Feeds c x y) (hx : x.1.expanded.Nodup) :
    y.1.expanded.Nodup := by
  cases h with
  | skip hsame =>
    rw [hsame]
    exact hx
  | expand _ hfresh hmore =>
    rw [hmore]
    exact List.nodup_cons.2 ⟨hfresh, hx⟩

/-- How many turns the worklist can still take. -/
def left (c : Catalog) (x : Survey × List Asset) : ℕ :=
  x.2.length + Walk.pending (expansions c) x.1.expanded

theorem Feeds.left_lt {x y : Survey × List Asset} (h : Feeds c x y) : left c y < left c x := by
  cases h with
  | @skip v v' a work hsame =>
    unfold left
    rw [hsame]
    exact Nat.add_lt_add_right (Nat.lt_succ_self _) _
  | @expand v v' a work s hs hfresh hmore =>
    have hmem : (s.id, s.inputs) ∈ expansions c := List.mem_map.2 ⟨s, hs, rfl⟩
    have hpending := Walk.pending_add_length_le hmem hfresh
    simp only [left, hmore, List.length_append, List.length_map, List.length_cons]
    omega

/-- Following goes on from turn to turn. -/
theorem follow_eq (c : Catalog) (alive : List StepId) (v : Survey) (work : List Asset) :
    follow c alive v work =
      match turn c alive (v, work) with
      | .leave answer => answer
      | .again y => follow c alive y.1 y.2 := by
  fun_cases follow c alive v work with
  | case1 => rfl
  | case2 a work handles hnone => simp only [turn, hnone, handles]
  | case3 a work s hs fault hfault => simp only [turn, hs, hfault]
  | case4 a work handles s hs hlost => simp only [turn, hs, hlost, handles]
  | case5 a work handles s hs hwon producers hold =>
    simp only [turn, hs, hwon, if_pos hold, handles, producers]
  | case6 a work handles s hs hwon producers hfresh =>
    simp only [turn, hs, hwon, if_neg hfresh, handles, producers]

/-- Following as a loop. -/
theorem computes_follow (c : Catalog) (alive : List StepId) :
    Computes (turn c alive) (fun x => follow c alive x.1 x.2) (left c) := by
  intro x
  have hfollow := follow_eq c alive x.1 x.2
  cases hturn : turn c alive x with
  | leave answer =>
    rw [hturn] at hfollow
    exact hfollow
  | again y =>
    rw [hturn] at hfollow
    exact ⟨hfollow, (feeds_of_turn hturn).left_lt⟩

/-- **Following ends**, and the inputs of a step are put on the worklist at most once. -/
theorem exists_runs_follow (c : Catalog) (alive : List StepId) (terminals : List Asset) :
    ∃ run, Runs (turn c alive) (empty, terminals) run (follow c alive empty terminals) ∧
      run.length ≤ terminals.length + (c.steps.flatMap (·.inputs)).length + 1 ∧
      run.IsChain (Feeds c) ∧ ∀ x ∈ run, x.1.expanded.Nodup := by
  obtain ⟨run, hrun, hlength⟩ := (computes_follow c alive).exists_runs (empty, terminals)
  refine ⟨run, hrun, ?_, hrun.isChain.imp fun _ _ => feeds_of_turn,
    hrun.forall_mem (fun x y hx hy => (feeds_of_turn hy).nodup hx) List.nodup_nil⟩
  have hleft : left c (empty, terminals) = terminals.length + (c.steps.flatMap (·.inputs)).length := by
    show terminals.length + Walk.pending (expansions c) [] = _
    rw [Walk.pending_nil, Walk.places, expansions, List.flatMap_map]
  rwa [hleft] at hlength

theorem places_sources (producers : List (Address × Step)) :
    Walk.places (sources producers) = (producers.flatMap (·.2.inputs)).length := by
  simp [Walk.places, sources, List.flatMap_map, List.length_flatMap]

end Survey

/-! ## Building a graph -/

namespace Graph

/-- Each of the walks that building a graph takes has a run that ends with what it answers. -/
structure WalksEnd (c : Catalog) (alive : List StepId) (terminals : List Asset) : Prop where
  /-- Handles are followed: each turn feeds the worklist, and no step feeds it twice. -/
  follow : ∃ run, Runs (Survey.turn c alive) (.empty, terminals) run
    (Survey.follow c alive .empty terminals) ∧
      run.length ≤ terminals.length + (c.steps.flatMap (·.inputs)).length + 1 ∧
      run.IsChain (Survey.Feeds c) ∧ ∀ x ∈ run, x.1.expanded.Nodup
  /-- The addresses that the terminals lead to are collected. -/
  collect : ∀ v, Survey.follow c alive .empty terminals = .ok v →
    ∃ run, Runs (Walk.collect (Survey.sources v.producers)) ([], terminals.map (·.address)) run
      (Walk.reach (Survey.sources v.producers) [] (terminals.map (·.address))) ∧
        run.length ≤ terminals.length + (v.producers.flatMap (·.2.inputs)).length + 1
  /-- A closed walk is searched for: no address has two visits that are not over. -/
  search : ∀ v, Survey.ofTerminals c alive terminals = .ok v →
    ∃ run, Runs (Walk.search (Survey.sources v.producers)) ⟨[], [], terminals.map (·.address)⟩ run
      (Walk.cycleFrom (Survey.sources v.producers) [] [] (terminals.map (·.address))) ∧
        run.length ≤ 2 * (terminals.length + (v.producers.flatMap (·.2.inputs)).length) + 1 ∧
        ∀ x ∈ run, x.path.Nodup

end Graph

namespace Session

variable {α : Type u}

/-- **Building a graph comes to an end** in every session and for all terminals, whether declarations
depend on each other in a circle or not: the inputs of a step are followed at most once, and the search
for a closed walk never visits an address that it is visiting. -/
theorem walks_end (s : Session α) (terminals : List Asset) :
    Graph.WalksEnd s.catalog (s.alive (terminals.filterMap (·.lineage))) terminals where
  follow := Survey.exists_runs_follow _ _ terminals
  collect v _ := by
    obtain ⟨run, hrun, hlength⟩ :=
      Walk.exists_runs_reach (Survey.sources v.producers) (terminals.map (·.address))
    rw [List.length_map, Survey.places_sources] at hlength
    exact ⟨run, hrun, hlength⟩
  search v _ := by
    obtain ⟨run, hrun, hlength, hnodup⟩ :=
      Walk.exists_runs_cycleFrom (Survey.sources v.producers) (terminals.map (·.address))
    rw [List.length_map, Survey.places_sources] at hlength
    exact ⟨run, hrun, hlength, hnodup⟩

/-- Three declarations depend on each other in a circle, and building their graph ends by reporting it. -/
theorem walks_end_closed :
    (Late.closed Late.copy).Reachable ∧
      (∀ a ∈ [Late.report.producedBy 1], (Late.closed Late.copy).Offers (.asset a)) ∧
      (Late.closed Late.copy).graph [Late.report.producedBy 1] =
        .error (.cycle ["report", "clean", "raw", "report"]) ∧
      Graph.WalksEnd (Late.closed Late.copy).catalog
        ((Late.closed Late.copy).alive ([Late.report.producedBy 1].filterMap (·.lineage)))
        [Late.report.producedBy 1] :=
  ⟨Late.reachable_closed rfl, Late.offers_closed _, Late.closed_eq _, walks_end _ _⟩

end Session

end Provenance
