import Mathlib.Data.Set.Finite.Lemmas
import Provenance.Proofs.Alive

/-!
# One producer for a declaration

A plain step is refused where its target has a producer.  The check looks at the last step of the
declaration and at the lineage of the handle.  An earlier step may be alive as well, through other handles
and readers, after it was replaced; and when the step that replaced it is dropped, the check finds nothing.

* `Overridden`: a step that is alive is left behind by steps that replace only.  This holds in all sessions
  that a client can reach (`Reachable.overridden`), since a plain step is refused as long as the last step
  is alive, and a dead step stays dead.
* `Session.exists_put_iff_dropped`: so a plain step is accepted exactly if its target has no lineage, and
  every step of the declaration that is still alive was replaced by a later one that is not.
* A plain step can give a declaration a second producer that is alive in this way
  (`Session.revived_of_put`).
-/

namespace Provenance

universe u

/-! ## 1.  The last step of a declaration -/

namespace Catalog

variable {c : Catalog}

/-- A declaration with a step has a last one, which is remembered. -/
theorem Listed.exists_latest (h : c.Listed) {t : Step} (ht : t ∈ c.steps) :
    ∃ l ∈ c.steps, l.output.declaration = t.output.declaration ∧ t.id ≤ l.id ∧
      c.latest.lookup t.output.declaration = some l.id := by
  have hids := h.ids
  rw [h.latest]
  clear h
  generalize c.steps = steps at ht hids
  induction steps with
  | nil => exact absurd ht List.not_mem_nil
  | cons s older ih =>
    obtain ⟨hnewer, holder⟩ := List.pairwise_cons.1 hids
    by_cases hs : t.output.declaration = s.output.declaration
    · refine ⟨s, List.mem_cons_self, hs.symm, ?_, ?_⟩
      · rcases List.mem_cons.1 ht with rfl | ht
        · exact Nat.le_refl _
        · exact Nat.le_of_lt (hnewer t ht)
      · rw [hs, List.map_cons, List.lookup_cons_self]
    · have hne : t ≠ s := fun heq => hs (by rw [heq])
      obtain ⟨l, hl, hdecl, hle, hlookup⟩ := ih ((List.mem_cons.1 ht).resolve_left hne) holder
      refine ⟨l, List.mem_cons_of_mem _ hl, hdecl, hle, ?_⟩
      rw [List.map_cons, lookup_cons_of_ne _ _ hs, hlookup]

end Catalog

namespace Session

variable {α : Type u} {s : Session α}

/-- A plain step is accepted where its target names no step that is alive. -/
theorem exists_put_iff (hs : s.Reachable) {d : Draft} {target : Asset} (hd : s.Offers (.draft d))
    (htarget : s.Offers (.asset target)) : (∃ a s', s.put d target = .ok (a, s')) ↔
      s.catalog.producer? (s.alive []) target = none := by
  have hextra : ∀ r ∈ d.roots ++ target.lineage.toList, r ∈ s.alive [] := by
    intro r hr
    rcases List.mem_append.1 hr with hr | hr
    · exact hd.subset_alive hs r hr
    · exact htarget.subset_alive hs r hr
  unfold put Catalog.put
  rw [Catalog.producer?_congr fun x => mem_alive_extra_iff hs.listed hextra]
  cases s.catalog.producer? (s.alive []) target with
  | none => exact iff_of_true ⟨_, _, rfl⟩ rfl
  | some t => exact iff_of_false (by simp [Except.map]) (by simp)

/-! ## 2.  What replaces what -/

/-- Between a step that is alive and any later one of its declaration, the later one included, some step
replaces. -/
def Overridden (s : Session α) : Prop :=
  ∀ t ∈ s.catalog.steps, ∀ l ∈ s.catalog.steps, t.output.declaration = l.output.declaration →
    t.id < l.id → t.id ∈ s.alive [] → ∃ r ∈ s.catalog.steps,
      r.output.declaration = l.output.declaration ∧ t.id < r.id ∧ r.id ≤ l.id ∧ r.replaces = true

/-- What dies leaves the others as they are. -/
theorem Overridden.of_alive (h : s.Overridden) {s' : Session α}
    (hsteps : s'.catalog.steps = s.catalog.steps) (halive : ∀ x ∈ s'.alive [], x ∈ s.alive []) :
    s'.Overridden := by
  unfold Overridden
  rw [hsteps]
  exact fun t ht l hl hdecl hlt ht' => h t ht l hl hdecl hlt (halive _ ht')

/-- A new step keeps the rule if the steps of its declaration that are alive are left behind by one that
replaces. -/
theorem Overridden.bind (h : s.Overridden) (hs : s.Reachable) {d : Draft} (hd : s.Offers (.draft d))
    {target : Asset} {replaces : Bool} (key : String)
    (hnew : ∀ t ∈ s.catalog.steps, t.output.declaration = target.declaration → t.id ∈ s.alive [] →
      replaces = true ∨ ∃ r ∈ s.catalog.steps,
        r.output.declaration = target.declaration ∧ t.id < r.id ∧ r.replaces = true) :
    (({ s with catalog := (s.catalog.bind d target replaces).2 } : Session α).keep key
      (.asset (s.catalog.bind d target replaces).1)).Overridden := by
  intro t ht l hl hdecl hlt halive
  have hnumbered := hs.listed.numbered
  have hold : t ∈ s.catalog.steps := by
    rcases List.mem_cons.1 ht with rfl | ht
    · -- no step is later than the new one
      rcases List.mem_cons.1 hl with rfl | hl
      · exact absurd hlt (Nat.lt_irrefl _)
      · exact absurd (hnumbered l hl) (Nat.not_le_of_lt (Nat.lt_of_succ_lt hlt))
    · exact ht
  have halive : t.id ∈ s.alive [] := by
    refine (alive_of_bind hs hd halive).resolve_left fun heq => ?_
    exact absurd (hnumbered t hold) (heq ▸ Nat.not_succ_le_self _)
  rcases List.mem_cons.1 hl with rfl | hl
  · rcases hnew t hold hdecl halive with hreplaces | ⟨r, hr, hrdecl, hlater, hreplaces⟩
    · exact ⟨_, List.mem_cons_self, rfl, hlt, Nat.le_refl _, hreplaces⟩
    · exact ⟨r, List.mem_cons_of_mem _ hr, hrdecl, hlater, Nat.le_succ_of_le (hnumbered r hr), hreplaces⟩
  · obtain ⟨r, hr, hrdecl, hlater, hle, hreplaces⟩ := h t hold l hl hdecl hlt halive
    exact ⟨r, List.mem_cons_of_mem _ hr, hrdecl, hlater, hle, hreplaces⟩

/-- Where a target names no step, the last step of its declaration is dead. -/
theorem exists_dead_of_producer? (hs : s.Reachable) {target : Asset} (htarget : s.Offers (.asset target))
    (h : s.catalog.producer? (s.alive []) target = none) {t : Step} (ht : t ∈ s.catalog.steps)
    (hdecl : t.output.declaration = target.declaration) (halive : t.id ∈ s.alive []) :
    ∃ l ∈ s.catalog.steps,
      l.output.declaration = target.declaration ∧ t.id < l.id ∧ l.id ∉ s.alive [] := by
  obtain ⟨home, hsound⟩ := hs.sound
  obtain ⟨-, hlatest⟩ := (hsound.catalog.producer?_eq_none_iff (htarget.known hsound)).1 h
  obtain ⟨l, hl, hldecl, hle, hlookup⟩ := hs.listed.exists_latest ht
  have hdead := hlatest l.id (hdecl ▸ hlookup)
  refine ⟨l, hl, hldecl.trans hdecl, Nat.lt_of_le_of_ne hle fun heq => ?_, hdead⟩
  exact hdead (heq ▸ halive)

/-- **A step that is alive is left behind by steps that replace only.** -/
theorem Reachable.overridden (h : s.Reachable) : s.Overridden := by
  induction h with
  | start => exact fun t ht => absurd ht List.not_mem_nil
  | declare name location key hs ih =>
    refine ih.of_alive rfl fun x hx => ?_
    exact alive_of_keep hs.listed (fun r hr => absurd hr List.not_mem_nil) hx
  | @put s s' d target a key hs hd htarget hput ih =>
    have hnone := (exists_put_iff hs hd htarget).1 ⟨a, s', hput⟩
    obtain ⟨rfl, rfl⟩ := put_eq_ok hput
    refine ih.bind hs hd key fun t ht hdecl halive => .inr ?_
    obtain ⟨l, hl, hldecl, hlt, -⟩ := exists_dead_of_producer? hs htarget hnone ht hdecl halive
    obtain ⟨r, hr, hrdecl, hlater, -, hreplaces⟩ :=
      ih t ht l hl (hdecl.trans hldecl.symm) hlt halive
    exact ⟨r, hr, hrdecl.trans hldecl, hlater, hreplaces⟩
  | replace key hs hd _ ih => exact ih.bind hs hd key fun _ _ _ _ => .inl rfl
  | keep key hs hitem ih =>
    exact ih.of_alive rfl fun x hx => alive_of_keep hs.listed (hitem.subset_alive hs) hx
  | drop key hs ih => exact ih.of_alive rfl fun x hx => alive_of_drop hs.listed hx

/-! ## 3.  Plain steps -/

/-- Where a target names no step, every step of its declaration that is still alive was replaced by a
later one that is not. -/
theorem exists_dropped_of_producer? (hs : s.Reachable) {target : Asset}
    (htarget : s.Offers (.asset target)) (h : s.catalog.producer? (s.alive []) target = none) {t : Step}
    (ht : t ∈ s.catalog.steps) (hdecl : t.output.declaration = target.declaration)
    (halive : t.id ∈ s.alive []) : ∃ r ∈ s.catalog.steps,
      r.output.declaration = target.declaration ∧ t.id < r.id ∧ r.replaces = true ∧
        r.id ∉ s.alive [] := by
  -- the last step of the declaration that is alive is the one that was left behind
  let living : Set Step :=
    {q | q ∈ s.catalog.steps ∧ q.output.declaration = target.declaration ∧ q.id ∈ s.alive []}
  have hfinite : living.Finite := (List.finite_toSet s.catalog.steps).subset fun q hq => hq.1
  obtain ⟨m, ⟨hm, hmdecl, hmalive⟩, hmax⟩ :=
    Set.exists_max_image living (·.id) hfinite ⟨t, ht, hdecl, halive⟩
  obtain ⟨l, hl, hldecl, hlt, -⟩ := exists_dead_of_producer? hs htarget h hm hmdecl hmalive
  obtain ⟨r, hr, hrdecl, hlater, -, hreplaces⟩ :=
    hs.overridden m hm l hl (hmdecl.trans hldecl.symm) hlt hmalive
  have hdead : r.id ∉ s.alive [] := fun hralive =>
    absurd (hmax r ⟨hr, hrdecl.trans hldecl, hralive⟩) (Nat.not_le_of_lt hlater)
  exact ⟨r, hr, hrdecl.trans hldecl, Nat.lt_of_le_of_lt (hmax t ⟨ht, hdecl, halive⟩) hlater, hreplaces,
    hdead⟩

/-- **A plain step is accepted exactly if its target has no lineage, and every step of the declaration
that is still alive was replaced by a later one that is not alive any more.** -/
theorem exists_put_iff_dropped (hs : s.Reachable) {d : Draft} {target : Asset}
    (hd : s.Offers (.draft d)) (htarget : s.Offers (.asset target)) :
    (∃ a s', s.put d target = .ok (a, s')) ↔ target.lineage = none ∧
      ∀ t ∈ s.catalog.steps, t.output.declaration = target.declaration → t.id ∈ s.alive [] →
        ∃ r ∈ s.catalog.steps, r.output.declaration = target.declaration ∧ t.id < r.id ∧
          r.replaces = true ∧ r.id ∉ s.alive [] := by
  obtain ⟨home, hsound⟩ := hs.sound
  have hnone : s.catalog.producer? (s.alive []) target = none ↔ _ :=
    hsound.catalog.producer?_eq_none_iff (htarget.known hsound)
  rw [exists_put_iff hs hd htarget]
  constructor
  · exact fun h => ⟨(hnone.1 h).1, fun t ht hdecl halive =>
      exists_dropped_of_producer? hs htarget h ht hdecl halive⟩
  · rintro ⟨hlineage, hreplaced⟩
    refine hnone.2 ⟨hlineage, fun id hid halive => ?_⟩
    -- nothing is later than the last step, so nothing can have replaced it
    obtain ⟨l, hl, hldecl⟩ := hsound.catalog.latest _ (mem_of_lookup hid)
    obtain rfl : l.id = id := Catalog.id_of_step? hl
    obtain ⟨r, hr, hrdecl, hlater, -⟩ := hreplaced l (Catalog.mem_of_step? hl) hldecl halive
    obtain ⟨last, -, -, hle, hlast⟩ := hs.listed.exists_latest hr
    rw [hrdecl, hid] at hlast
    exact absurd (Option.some.inj hlast ▸ hle) (Nat.not_le_of_lt hlater)

/-! ## 4.  A session in which a step was replaced and the other one dropped -/

namespace Revival

open Late (raw clean)

/-- The draft of each step. -/
def draft (t : Task) : Draft := ⟨t, [("x", raw)]⟩

/-- The step that stays in use. -/
def kept (t : Task) : Step := ⟨1, t, [("x", raw)], clean, false⟩

/-- The step that replaces it and is dropped. -/
def dropped (t : Task) : Step := ⟨2, t, [("x", raw)], clean, true⟩

/-- The plain step after that. -/
def plain (t : Task) : Step := ⟨3, t, [("x", raw)], clean, false⟩

/-- The session after some steps, whose handles are kept under further names. -/
def after (steps : List Step) (handles : List (String × Asset)) : Session Unit :=
  .ofSteps 2 steps ([("raw", raw), ("clean", clean)] ++ handles)

/-- The session after the handle from the second step was dropped. -/
def session (t : Task) : Session Unit := after [dropped t, kept t] [("kept", clean.producedBy 1)]

section

variable {t : Task} (ht : t.params = ["x"])

include ht

theorem offers_draft {s : Session Unit} (hs : s.item? "raw" = some (.asset raw)) :
    s.Offers (.draft (draft t)) := .single (.of_item? "raw" hs) (transform_of_params ht)

theorem reachable : (session t).Reachable := by
  have hdeclared : (after [] []).Reachable :=
    .declare "clean" "lake" "clean" (.declare "raw" "lake" "raw" .start)
  have hput : (after [] []).put (draft t) clean = .ok (clean.producedBy 1, after [kept t] []) := by
    cbv
  have hkept : (after [kept t] [("kept", clean.producedBy 1)]).Reachable :=
    .put "kept" hdeclared (offers_draft ht rfl) (.of_item? "clean" rfl) hput
  have hreplaced : (after [dropped t, kept t] [("kept", clean.producedBy 1),
      ("dropped", clean.producedBy 2)]).Reachable :=
    .replace "dropped" hkept (offers_draft ht rfl) (.of_item? "clean" rfl)
  exact .drop "dropped" hreplaced

end

section

variable (t : Task)

theorem offers_clean : (session t).Offers (.asset clean) := .of_item? "clean" rfl

theorem put_eq : (session t).put (draft t) clean = .ok (clean.producedBy 3,
    after [plain t, dropped t, kept t] [("kept", clean.producedBy 1)]) := by
  cbv

theorem kept_alive : (kept t).id ∈ (session t).alive [] := by
  have halive : (session t).alive [] = [1] := by
    cbv
  rw [halive]
  exact List.mem_singleton_self _

/-- Both plain steps are alive in the end. -/
theorem both_alive : (after [plain t, dropped t, kept t] [("kept", clean.producedBy 1)]).alive [3] =
    [3, 1] := by
  cbv

end

end Revival

/-- The step that was dropped had replaced the one that is kept, so a plain step is accepted. -/
theorem exists_put_iff_dropped_revival :
    let s := Revival.session Late.copy
    1 ∈ s.alive [] ∧ ∃ r ∈ s.catalog.steps, r.output.declaration = Late.clean.declaration ∧
      1 < r.id ∧ r.replaces = true ∧ r.id ∉ s.alive [] := by
  obtain ⟨-, hreplaced⟩ := (exists_put_iff_dropped (Revival.reachable (t := Late.copy) rfl)
    (Revival.offers_draft rfl rfl) (Revival.offers_clean _)).1 ⟨_, _, Revival.put_eq _⟩
  exact ⟨Revival.kept_alive _, hreplaced (Revival.kept _) (.tail _ (.head _)) rfl (Revival.kept_alive _)⟩

/-- **A plain step can give a declaration a second producer that is alive.**  It is accepted although the
first step into the declaration is in use, and then both are. -/
theorem revived_of_put :
    let s := Revival.session Late.copy
    let s' := Revival.after [Revival.plain Late.copy, Revival.dropped Late.copy,
      Revival.kept Late.copy] [("kept", Late.clean.producedBy 1)]
    s.Reachable ∧ s.Offers (.draft (Revival.draft Late.copy)) ∧ s.Offers (.asset Late.clean) ∧
      s.put (Revival.draft Late.copy) Late.clean = .ok (Late.clean.producedBy 3, s') ∧
      Revival.kept Late.copy ∈ s.catalog.steps ∧
      (Revival.kept Late.copy).output.declaration = Late.clean.declaration ∧
      (Revival.kept Late.copy).id ∈ s.alive [] ∧ s'.alive [3] = [3, 1] :=
  ⟨Revival.reachable rfl, Revival.offers_draft rfl rfl, Revival.offers_clean _, Revival.put_eq _,
    .tail _ (.head _), rfl, Revival.kept_alive _, Revival.both_alive _⟩

end Session

end Provenance
