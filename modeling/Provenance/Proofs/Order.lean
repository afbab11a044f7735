import Mathlib.Data.List.Nodup
import Mathlib.Data.List.Perm.Subperm
import Provenance.Proofs.Greedy
import Provenance.Proofs.Waiting

/-!
# The order of execution is greedy

`Order.settle` places ready steps while it counts, for every step, the steps that it still waits for.
The counts are a device; what they compute is the greedy order for the rule `Ready`: a step is ready when
it is not placed and every step that it reads from is (`ids_greedy`).

The invariant is `Settling`.  It says that the counts and the list of ready steps tell the truth
(`Waiting.Tells`) about the steps that are placed, and one turn of the loop keeps it (`Settling.turn`).
Nor is a count ever lowered below zero: `Waiting.lower?` refuses to do that, and the loop with it does not
fail (`settle_greedy`).
-/

namespace Provenance

namespace Survey

/-- Two producers with one number are one step. -/
def Consistent (v : Survey) : Prop :=
  ∀ e ∈ v.producers, ∀ f ∈ v.producers, e.2.id = f.2.id → e.2 = f.2

end Survey

namespace Order

/-! ## The steps of a survey, and what they read from -/

/-- What collecting adds to the steps that are found. -/
theorem collect_spec (es : List (Address × Step)) :
    ∀ found : List Step, (found.map (·.id)).Nodup →
      let result := es.foldl
        (fun found e => if found.any (·.id == e.2.id) then found else found ++ [e.2]) found
      (result.map (·.id)).Nodup ∧ (∀ s ∈ found, s ∈ result) ∧
        (∀ s ∈ result, s ∈ found ∨ ∃ a, (a, s) ∈ es) ∧ ∀ e ∈ es, ∃ s ∈ result, s.id = e.2.id := by
  induction es with
  | nil => exact fun found hfound => ⟨hfound, fun _ h => h, fun _ h => .inl h, by simp⟩
  | cons e es ih =>
    intro found hfound
    rw [List.foldl_cons]
    by_cases hany : found.any (·.id == e.2.id)
    · rw [if_pos hany]
      obtain ⟨hnodup, hsub, hmem, hall⟩ := ih found hfound
      refine ⟨hnodup, hsub, fun s hs => (hmem s hs).imp_right fun ⟨a, ha⟩ =>
        ⟨a, List.mem_cons_of_mem _ ha⟩, List.forall_mem_cons.2 ⟨?_, hall⟩⟩
      obtain ⟨s, hs, hid⟩ := List.any_eq_true.1 hany
      exact ⟨s, hsub s hs, by simpa using hid⟩
    · rw [if_neg hany]
      have hfresh : ((found ++ [e.2]).map (·.id)).Nodup := by
        rw [List.map_append, List.map_cons, List.map_nil, List.nodup_append]
        refine ⟨hfound, List.nodup_singleton _, ?_⟩
        rintro x hx y hy rfl
        obtain ⟨s, hs, rfl⟩ := List.mem_map.1 hx
        exact hany (List.any_eq_true.2 ⟨s, hs, by simpa using hy⟩)
      obtain ⟨hnodup, hsub, hmem, hall⟩ := ih (found ++ [e.2]) hfresh
      refine ⟨hnodup, fun s hs => hsub s (List.mem_append_left _ hs), fun s hs => ?_,
        List.forall_mem_cons.2 ⟨⟨e.2, hsub _ (by simp), rfl⟩, hall⟩⟩
      rcases hmem s hs with h | ⟨a, ha⟩
      · rcases List.mem_append.1 h with h | h
        · exact .inl h
        · obtain rfl := List.mem_singleton.1 h
          exact .inr ⟨e.1, List.mem_cons_self⟩
      · exact .inr ⟨a, List.mem_cons_of_mem _ ha⟩

theorem nodup_steps (v : Survey) : ((steps v).map (·.id)).Nodup :=
  (collect_spec v.producers [] (by simp)).1

theorem mem_steps {v : Survey} (hv : v.Consistent) {s : Step} :
    s ∈ steps v ↔ ∃ a, (a, s) ∈ v.producers := by
  obtain ⟨-, -, hmem, hall⟩ := collect_spec v.producers [] (by simp)
  refine ⟨fun hs => (hmem s hs).resolve_left (by simp), ?_⟩
  rintro ⟨a, ha⟩
  obtain ⟨t, ht, hid⟩ := hall (a, s) ha
  obtain ⟨b, hb⟩ := (hmem t ht).resolve_left (by simp)
  rwa [show s = t from hv (a, s) ha (b, t) hb hid.symm]

theorem nodup_upstream (v : Survey) (s : Step) : (upstream v s).Nodup := nodup_eraseDups

theorem mem_upstream {v : Survey} {s : Step} {p : StepId} :
    p ∈ upstream v s ↔
      ∃ i ∈ s.inputs, ∃ t, v.producers.lookup i.2.address = some t ∧ t.id = p := by
  simp only [upstream, List.mem_eraseDups, List.mem_filterMap, Survey.producerId?,
    Option.map_eq_some_iff]

/-- Steps of one number in a list without repeated numbers are one step. -/
theorem eq_of_id_eq {all : List Step} (hall : (all.map (·.id)).Nodup) {s t : Step} (hs : s ∈ all)
    (ht : t ∈ all) (h : s.id = t.id) : s = t :=
  List.inj_on_of_nodup_map hall hs ht h

/-- As `settle`, but the loop fails when a count would be lowered below zero. -/
def settle? (readers : StepId → List StepId) : Nat → Waiting → Option (List StepId)
  | 0, _ => some []
  | fuel + 1, w =>
    match w.ready with
    | [] => some []
    | id :: ready =>
      match (readers id).foldlM Waiting.lower? { w with ready } with
      | none => none
      | some w => (settle? readers fuel w).map (id :: ·)

/-! ## The loop -/

/-- A step is ready when it is not placed and all steps that it reads from are. -/
def Ready (v : Survey) (all : List Step) (placed : List StepId) (id : StepId) : Prop :=
  id ∉ placed ∧ ∃ s ∈ all, s.id = id ∧ ∀ p ∈ upstream v s, p ∈ placed

/-- The steps that read from a step, in the order of a list. -/
def readers (v : Survey) (all : List Step) (id : StepId) : List StepId :=
  (all.filter fun s => id ∈ upstream v s).map (·.id)

/-- The books while some steps are placed: the counts and the list of ready steps are true, and what a
placed step waits for is placed. -/
structure Settling (v : Survey) (all : List Step) (placed : List StepId) (w : Waiting) : Prop where
  told : w.Tells (·.id) (upstream v) all placed placed
  nodup : placed.Nodup
  listed : ∀ id ∈ placed, id ∈ all.map (·.id)
  closed : ∀ s ∈ all, s.id ∈ placed → ∀ p ∈ upstream v s, p ∈ placed

section Loop

variable {v : Survey} {all : List Step}

theorem mem_readers {id x : StepId} : x ∈ readers v all id ↔ ∃ s ∈ all, s.id = x ∧ id ∈ upstream v s := by
  simp only [readers, List.mem_map, List.mem_filter, decide_eq_true_eq]
  constructor
  · rintro ⟨s, ⟨hs, hid⟩, hx⟩
    exact ⟨s, hs, hx, hid⟩
  · rintro ⟨s, hs, hx, hid⟩
    exact ⟨s, ⟨hs, hid⟩, hx⟩

theorem nodup_readers (hall : (all.map (·.id)).Nodup) (id : StepId) :
    (readers v all id).Nodup :=
  hall.sublist ((List.filter_sublist).map _)

/-- The books are in order before anything is placed. -/
theorem settling_start (hall : (all.map (·.id)).Nodup) : Settling v all [] (start v all) := by
  obtain ⟨hsorted, hmem⟩ := foldr_place
    (((all.map fun s => (s.id, (upstream v s).length)).filter (·.2 == 0)).map (·.1))
  exact ⟨Waiting.tells_of_start hall hmem hsorted, List.nodup_nil, by simp, by simp⟩

/-- **One turn of the loop keeps the books in order**: it places a ready step and lowers the counts of
those that read from it, none of them below zero. -/
theorem Settling.turn (hall : (all.map (·.id)).Nodup) {l : StepId → List StepId}
    (hl : ∀ id, (l id).Nodup ∧ ∀ x, x ∈ l id ↔ x ∈ readers v all id)
    {placed ready : List StepId} {id : StepId} {w : Waiting} (h : Settling v all placed w)
    (hw : w.ready = id :: ready) :
    Settling v all (placed ++ [id]) ((l id).foldl Waiting.lower { w with ready }) ∧
      (l id).foldlM Waiting.lower? { w with ready } =
        some ((l id).foldl Waiting.lower { w with ready }) := by
  obtain ⟨hid, t, ht, rfl, htup⟩ := (h.told.ready id).1 (hw ▸ List.mem_cons_self)
  -- a step that reads from the one that is placed now is not placed
  have hunplaced : ∀ s ∈ all, t.id ∈ upstream v s → s.id ∉ placed ++ [t.id] := by
    intro s hs hreads hmem
    rcases List.mem_append.1 hmem with hmem | hmem
    · exact hid (h.closed s hs hmem t.id hreads)
    · obtain rfl := eq_of_id_eq hall hs ht (List.mem_singleton.1 hmem)
      exact hid (htup s.id hreads)
  obtain ⟨htold, hstrict⟩ := (h.told.take hw).lower hall (fun s _ => nodup_upstream v s) hid hunplaced
    (hl t.id).1 fun x => ((hl t.id).2 x).trans mem_readers
  refine ⟨⟨htold, nodup_append_singleton h.nodup hid, fun x hx => ?_, fun s hs hmem p hp => ?_⟩, hstrict⟩
  · rcases List.mem_append.1 hx with hx | hx
    · exact h.listed x hx
    · exact List.mem_map.2 ⟨t, ht, (List.mem_singleton.1 hx).symm⟩
  · rcases List.mem_append.1 hmem with hmem | hmem
    · exact List.mem_append_left _ (h.closed s hs hmem p hp)
    · obtain rfl := eq_of_id_eq hall hs ht (List.mem_singleton.1 hmem)
      exact List.mem_append_left _ (htup p hp)

/-- When as many steps are placed as there are, none is ready. -/
theorem Settling.not_ready {placed : List StepId} {w : Waiting} (h : Settling v all placed w)
    (hlen : all.length ≤ placed.length) (id : StepId) : ¬ Ready v all placed id := by
  rintro ⟨hfresh, s, hs, rfl, -⟩
  have hperm : placed.Perm (all.map (·.id)) :=
    (List.subperm_of_subset h.nodup h.listed).perm_of_length_le (by simpa using hlen)
  exact hfresh (hperm.mem_iff.2 (List.mem_map.2 ⟨s, hs, rfl⟩))

/-- **The loop places steps greedily, and no count is lowered below zero.** -/
theorem settle_greedy (hall : (all.map (·.id)).Nodup) {l : StepId → List StepId}
    (hl : ∀ id, (l id).Nodup ∧ ∀ x, x ∈ l id ↔ x ∈ readers v all id) (fuel : ℕ) :
    ∀ {placed : List StepId} {w : Waiting}, Settling v all placed w →
      all.length ≤ placed.length + fuel →
      Greedy (Ready v all) placed (settle l fuel w) ∧
        settle? l fuel w = some (settle l fuel w) := by
  induction fuel with
  | zero => exact fun h hlen => ⟨.done (h.not_ready hlen), rfl⟩
  | succ fuel ih =>
    intro placed w h hlen
    unfold settle settle?
    cases hw : w.ready with
    | nil =>
      refine ⟨.done fun id hid => ?_, rfl⟩
      have := (h.told.ready id).2 hid
      rw [hw] at this
      exact absurd this (by simp)
    | cons id ready =>
      have hid : Ready v all placed id := (h.told.ready id).1 (hw ▸ List.mem_cons_self)
      obtain ⟨hnext, hlower⟩ := h.turn hall hl hw
      obtain ⟨hgreedy, hstrict⟩ := ih hnext (by simp; omega)
      refine ⟨.next hid (fun other hother => ?_) hgreedy, ?_⟩
      · exact h.told.le_of_ready hw ((h.told.ready other).2 hother)
      · dsimp only
        rw [hlower]
        dsimp only
        rw [hstrict]
        rfl

end Loop

/-- The order of execution is greedy. -/
theorem ids_greedy (v : Survey) : Greedy (Ready v (steps v)) [] (ids v) :=
  (settle_greedy (nodup_steps v) (fun id => ⟨nodup_readers (nodup_steps v) id, fun _ => .rfl⟩) _
    (settling_start (nodup_steps v)) (by simp)).1

theorem nodup_ids (v : Survey) : (ids v).Nodup :=
  ((ids_greedy v).nodup fun _ _ h => h.1).1

/-- Only steps of the survey are placed. -/
theorem exists_of_mem_ids {v : Survey} {id : StepId} (h : id ∈ ids v) :
    ∃ s ∈ steps v, s.id = id := by
  obtain ⟨before, after, hsplit⟩ := List.append_of_mem h
  obtain ⟨-, s, hs, hid, -⟩ := ((ids_greedy v).of_split hsplit).1
  exact ⟨s, hs, hid⟩

/-! ## What a survey's order of execution is -/

/-- The steps of the order are those with the numbers of the order. -/
theorem map_id_filterMap_find? {all : List Step} :
    ∀ {placed : List StepId}, (∀ id ∈ placed, ∃ s ∈ all, s.id = id) →
      (placed.filterMap fun id => all.find? (·.id == id)).map (·.id) = placed
  | [], _ => rfl
  | id :: placed, h => by
    obtain ⟨hid, hplaced⟩ := List.forall_mem_cons.1 h
    obtain ⟨s, hs⟩ : ∃ s, all.find? (·.id == id) = some s := by
      obtain ⟨s, hs, rfl⟩ := hid
      exact Option.isSome_iff_exists.1 (List.find?_isSome.2 ⟨s, hs, by simp⟩)
    have hsid : s.id = id := by simpa using List.find?_some hs
    simp only [List.filterMap_cons, hs, List.map_cons, hsid]
    rw [map_id_filterMap_find? hplaced]

/-- The order exists exactly if every step is placed. -/
theorem ofSurvey_eq_ok_iff {v : Survey} {placed : List Step} :
    ofSurvey v = .ok placed ↔ (∀ s ∈ steps v, s.id ∈ ids v) ∧
      placed = (ids v).filterMap fun id => (steps v).find? (·.id == id) := by
  have hstuck : ((steps v).filter (·.id ∉ ids v)).isEmpty = true ↔ ∀ s ∈ steps v, s.id ∈ ids v := by
    rw [List.isEmpty_iff, List.filter_eq_nil_iff]
    simp
  unfold ofSurvey
  dsimp only
  split
  · rename_i h
    rw [Except.ok.injEq]
    exact ⟨fun heq => ⟨hstuck.1 h, heq.symm⟩, fun heq => heq.2.symm⟩
  · rename_i h
    refine ⟨fun heq => absurd heq (by simp), fun heq => absurd (hstuck.2 heq.1) h⟩

theorem map_id_of_ofSurvey {v : Survey} {placed : List Step} (h : ofSurvey v = .ok placed) :
    placed.map (·.id) = ids v := by
  rw [(ofSurvey_eq_ok_iff.1 h).2]
  exact map_id_filterMap_find? fun _ => exists_of_mem_ids

theorem mem_of_ofSurvey {v : Survey} {placed : List Step} (h : ofSurvey v = .ok placed) {s : Step} :
    s ∈ placed ↔ s ∈ steps v := by
  obtain ⟨hall, hplaced⟩ := ofSurvey_eq_ok_iff.1 h
  rw [hplaced, List.mem_filterMap]
  constructor
  · rintro ⟨id, -, hfind⟩
    exact List.mem_of_find?_eq_some hfind
  · intro hs
    refine ⟨s.id, hall s hs, ?_⟩
    obtain ⟨t, ht⟩ : ∃ t, (steps v).find? (·.id == s.id) = some t :=
      Option.isSome_iff_exists.1 (List.find?_isSome.2 ⟨s, hs, by simp⟩)
    have hid : t.id = s.id := by simpa using List.find?_some ht
    rw [ht, eq_of_id_eq (nodup_steps v) (List.mem_of_find?_eq_some ht) hs hid]

/-! ## Nothing depends on how the tables are listed -/

theorem upstream_of_perm {v w : Survey} (hv : (v.producers.map (·.1)).Nodup)
    (hperm : v.producers.Perm w.producers) (s : Step) : upstream w s = upstream v s := by
  unfold upstream Survey.producerId?
  congr 2
  funext i
  rw [lookup_of_perm hv hperm]

/-- **The order of execution does not depend on the order in which anything is listed**: not on that of
the producers, not on that of the steps whose readers are looked up or whose counts are listed.  Nor
does a higher bound for the turns of the loop change it.  And in no case is a count lowered below
zero. -/
theorem settle_eq_ids {v w : Survey} (hv : v.Consistent) (hkeys : (v.producers.map (·.1)).Nodup)
    (hperm : w.producers.Perm v.producers) {listed counted : List Step}
    (hlisted : listed.Perm (steps w)) (hcounted : counted.Perm (steps w)) {fuel : ℕ}
    (hfuel : counted.length ≤ fuel) :
    settle (readers w listed) fuel (start w counted) = ids v ∧
      settle? (readers w listed) fuel (start w counted) = some (ids v) := by
  have hw : w.Consistent := fun e he f hf => hv e (hperm.mem_iff.1 he) f (hperm.mem_iff.1 hf)
  have hnodup : (counted.map (·.id)).Nodup := (hcounted.map _).nodup_iff.2 (nodup_steps w)
  have hreaders : ∀ id, (readers w listed id).Nodup ∧
      ∀ x, x ∈ readers w listed id ↔ x ∈ readers w counted id := by
    intro id
    have hboth : (readers w listed id).Perm (readers w counted id) :=
      ((hlisted.trans hcounted.symm).filter _).map _
    exact ⟨hboth.nodup_iff.2 (nodup_readers hnodup id), fun x => hboth.mem_iff⟩
  obtain ⟨hgreedy, hstrict⟩ :=
    settle_greedy hnodup hreaders fuel (settling_start hnodup) (by simpa using hfuel)
  suffices hids : settle (readers w listed) fuel (start w counted) = ids v from
    ⟨hids, by rw [hstrict, hids]⟩
  refine (hgreedy.congr fun placed id => ?_).unique (ids_greedy v)
  have hmem : ∀ s, s ∈ counted ↔ s ∈ steps v := by
    intro s
    rw [hcounted.mem_iff, mem_steps hw, mem_steps hv]
    exact exists_congr fun a => hperm.mem_iff
  simp only [Ready, hmem, upstream_of_perm hkeys hperm.symm]

theorem ids_of_perm {v w : Survey} (hv : v.Consistent) (hkeys : (v.producers.map (·.1)).Nodup)
    (hperm : w.producers.Perm v.producers) : ids w = ids v :=
  (settle_eq_ids hv hkeys hperm (.refl _) (.refl _) (Nat.le_refl _)).1

end Order

end Provenance
