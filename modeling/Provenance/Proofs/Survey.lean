import Mathlib.Logic.Relation
import Provenance.Graph.Survey
import Provenance.Proofs.Catalog
import Provenance.Proofs.Walk

/-!
# What a survey settles on

A survey settles on one producer for an address.  The producers say which address *reads* which
(`Reads`), and so what lies *behind* the terminals (`Behind`); pruning keeps the producers of just these
addresses (`lookup_prune_iff`).

`follow_induct` is the induction for the worklist: a property of a survey with its worklist that each of
the three kinds of turn keeps (`Kept`) holds at the end, or where following fails, at the handle that is
contested (`exists_contest_of_follow`).  Two invariants rest on it.

* `Settled`: addresses have one producer each, and a producer is the step of the catalog with its
  number.  This holds in every catalog.
* `Fits`: in a sound catalog the producer of an address writes to that address, and every address that
  comes up has a handle.
-/

namespace Provenance

namespace Survey

variable {v : Survey}

/-! ## Reading -/

/-- The producer of an address reads another one. -/
def Reads (v : Survey) (a b : Address) : Prop :=
  ∃ s, v.producers.lookup a = some s ∧ ∃ i ∈ s.inputs, i.2.address = b

/-- The terminals lead back to an address. -/
def Behind (v : Survey) (terminals : List Asset) (a : Address) : Prop :=
  ∃ t ∈ terminals, Relation.ReflTransGen v.Reads t.address a

theorem leads_sources_iff {a b : Address} :
    Walk.Leads (sources v.producers) a b ↔ v.Reads a b := by
  unfold Walk.Leads Reads sources
  rw [lookup_map_snd fun s : Step => s.inputs.map (·.2.address)]
  constructor
  · rintro ⟨places, hplaces, hb⟩
    obtain ⟨s, hs, rfl⟩ := Option.map_eq_some_iff.1 hplaces
    exact ⟨s, hs, List.mem_map.1 hb⟩
  · rintro ⟨s, hs, hb⟩
    exact ⟨_, Option.map_eq_some_iff.2 ⟨s, hs, rfl⟩, List.mem_map.2 hb⟩

theorem leads_sources : Walk.Leads (sources v.producers) = v.Reads := by
  funext a b
  exact propext leads_sources_iff

theorem Behind.of_mem {terminals : List Asset} {t : Asset} (h : t ∈ terminals) :
    v.Behind terminals t.address := ⟨t, h, .refl⟩

theorem Behind.reads {terminals : List Asset} {a b : Address} (h : v.Behind terminals a)
    (hab : v.Reads a b) : v.Behind terminals b := by
  obtain ⟨t, ht, hta⟩ := h
  exact ⟨t, ht, hta.tail hab⟩

/-- Pruning collects what lies behind the terminals. -/
theorem mem_reach_sources_iff {terminals : List Asset} {a : Address} :
    a ∈ Walk.reach (sources v.producers) [] (terminals.map (·.address)) ↔ v.Behind terminals a := by
  rw [Walk.mem_reach_nil_iff, leads_sources]
  constructor
  · rintro ⟨b, hb, hba⟩
    obtain ⟨t, ht, rfl⟩ := List.mem_map.1 hb
    exact ⟨t, ht, hba⟩
  · rintro ⟨t, ht, hta⟩
    exact ⟨_, List.mem_map.2 ⟨t, ht, rfl⟩, hta⟩

/-- **Pruning keeps the producers of what lies behind the terminals.** -/
theorem lookup_prune_iff {terminals : List Asset} {a : Address} {s : Step} :
    (prune (terminals.map (·.address)) v).producers.lookup a = some s ↔
      v.Behind terminals a ∧ v.producers.lookup a = some s := by
  unfold prune
  dsimp only
  rw [lookup_filter_fst fun b : Address =>
    decide (b ∈ Walk.reach (sources v.producers) [] (terminals.map (·.address)))]
  by_cases ha : v.Behind terminals a
  · rw [if_pos (decide_eq_true (mem_reach_sources_iff.2 ha))]
    exact ⟨fun hs => ⟨ha, hs⟩, And.right⟩
  · rw [if_neg (by simpa [mem_reach_sources_iff] using ha)]
    exact ⟨fun hs => absurd hs (by simp), fun hs => absurd hs.1 ha⟩

theorem reads_prune_iff {terminals : List Asset} {a b : Address} :
    (prune (terminals.map (·.address)) v).Reads a b ↔ v.Behind terminals a ∧ v.Reads a b := by
  unfold Reads
  constructor
  · rintro ⟨s, hs, hi⟩
    obtain ⟨ha, hs⟩ := lookup_prune_iff.1 hs
    exact ⟨ha, s, hs, hi⟩
  · rintro ⟨ha, s, hs, hi⟩
    exact ⟨s, lookup_prune_iff.2 ⟨ha, hs⟩, hi⟩

/-- Pruning leaves alone what lies behind the terminals. -/
theorem behind_prune_iff {terminals : List Asset} {a : Address} :
    (prune (terminals.map (·.address)) v).Behind terminals a ↔ v.Behind terminals a := by
  constructor
  · rintro ⟨t, ht, hta⟩
    exact ⟨t, ht, Relation.ReflTransGen.mono (fun _ _ h => (reads_prune_iff.1 h).2) _ _ hta⟩
  · rintro ⟨t, ht, hta⟩
    refine ⟨t, ht, ?_⟩
    induction hta with
    | refl => exact .refl
    | tail htb hbc ih => exact ih.tail (reads_prune_iff.2 ⟨⟨t, ht, htb⟩, hbc⟩)

/-! ## Following -/

/-- What each turn of the worklist keeps.  A handle without a producer, or whose producer does not win, is
skipped; a producer that wins puts its inputs on the worklist unless they were there before. -/
structure Kept (c : Catalog) (alive : List StepId) (P : Survey → List Asset → Prop) : Prop where
  skip : ∀ v a work, P v (a :: work) → (∀ s, c.producer? alive a = some s →
    contest a.address (v.producers.lookup a.address) s = .ok false) →
      P { v with handles := merge a v.handles } work
  win : ∀ v a work s, P v (a :: work) → c.producer? alive a = some s →
    contest a.address (v.producers.lookup a.address) s = .ok true → s.id ∈ v.expanded →
      P ⟨merge a v.handles, assign a.address s v.producers, v.expanded⟩ work
  new : ∀ v a work s, P v (a :: work) → c.producer? alive a = some s →
    contest a.address (v.producers.lookup a.address) s = .ok true → s.id ∉ v.expanded →
      P ⟨merge a v.handles, assign a.address s v.producers, s.id :: v.expanded⟩
        (s.inputs.map (·.2) ++ work)

/-- **Induction along the worklist.**  What each turn keeps holds at the end, or where a handle is
contested. -/
theorem follow_keeps {c : Catalog} {alive : List StepId} {P : Survey → List Asset → Prop}
    (hP : Kept c alive P) {v : Survey} {work : List Asset} (hstart : P v work) :
    match follow c alive v work with
    | .ok v' => P v' []
    | .error fault => ∃ w a rest s, P w (a :: rest) ∧ c.producer? alive a = some s ∧
        contest a.address (w.producers.lookup a.address) s = .error fault := by
  fun_induction follow c alive v work with
  | case1 v => exact hstart
  | case2 v a work handles hnone ih =>
    exact ih (hP.skip v a work hstart fun s hs => absurd (hnone.symm.trans hs) (by simp))
  | case3 v a work s hs fault hfault => exact ⟨v, a, work, s, hstart, hs, hfault⟩
  | case4 v a work handles s hs hlost ih =>
    refine ih (hP.skip v a work hstart fun t ht => ?_)
    rwa [← Option.some.inj (hs.symm.trans ht)]
  | case5 v a work handles s hs hwon producers hold ih => exact ih (hP.win v a work s hstart hs hwon hold)
  | case6 v a work handles s hs hwon producers hfresh ih => exact ih (hP.new v a work s hstart hs hwon hfresh)

theorem follow_induct {c : Catalog} {alive : List StepId} {P : Survey → List Asset → Prop}
    (hP : Kept c alive P) {v v' : Survey} {work : List Asset} (h : follow c alive v work = .ok v')
    (hstart : P v work) : P v' [] := by
  have hend := follow_keeps hP hstart
  rwa [h] at hend

/-- **Following fails where a handle is contested**, at a point that every turn before has kept. -/
theorem exists_contest_of_follow {c : Catalog} {alive : List StepId} {P : Survey → List Asset → Prop}
    (hP : Kept c alive P) {v : Survey} {work : List Asset} {fault : Fault}
    (h : follow c alive v work = .error fault) (hstart : P v work) :
    ∃ w a rest s, P w (a :: rest) ∧ c.producer? alive a = some s ∧
      contest a.address (w.producers.lookup a.address) s = .error fault := by
  have hend := follow_keeps hP hstart
  rwa [h] at hend

/-- Addresses have one producer each, which is the step of the catalog with its number. -/
structure Settled (c : Catalog) (v : Survey) : Prop where
  keys : (v.producers.map (·.1)).Nodup
  step : ∀ e ∈ v.producers, c.step? e.2.id = some e.2

theorem settled_empty (c : Catalog) : empty.Settled c := ⟨List.nodup_nil, by simp [empty]⟩

theorem Settled.assign {c : Catalog} (h : v.Settled c) {alive : List StepId} {a : Asset} {s : Step}
    (hs : c.producer? alive a = some s) (handles : List (Address × Asset)) (expanded : List StepId) :
    Settled c ⟨handles, assign a.address s v.producers, expanded⟩ := by
  refine ⟨nodup_keys_assign _ _ h.keys, fun e he => ?_⟩
  rcases mem_assign he with rfl | he
  · exact Catalog.step?_of_producer? hs
  · exact h.step e he

theorem settled_of_follow {c : Catalog} {alive : List StepId} {terminals : List Asset}
    (h : follow c alive empty terminals = .ok v) : v.Settled c := by
  refine follow_induct (P := fun v _ => v.Settled c) ⟨?_, ?_, ?_⟩ h (settled_empty c)
  · exact fun v a work hv _ => ⟨hv.keys, hv.step⟩
  · exact fun v a work s hv hs _ _ => hv.assign hs _ _
  · exact fun v a work s hv hs _ _ => hv.assign hs _ _

theorem Settled.prune {c : Catalog} (h : v.Settled c) (terminals : List Address) :
    (prune terminals v).Settled c :=
  ⟨h.keys.sublist (List.filter_sublist.map _), fun e he => h.step e (List.mem_of_mem_filter he)⟩

theorem Settled.lookup_iff {c : Catalog} (h : v.Settled c) {a : Address} {s : Step} :
    v.producers.lookup a = some s ↔ (a, s) ∈ v.producers := lookup_eq_some_iff_mem h.keys

/-! ## Following in a sound catalog -/

theorem mem_keys_merge {a : Asset} {handles : List (Address × Asset)} {b : Address} :
    b ∈ (merge a handles).map (·.1) ↔ b = a.address ∨ b ∈ handles.map (·.1) := by
  have hassign : b ∈ (assign a.address a handles).map (·.1) ↔
      b = a.address ∨ b ∈ handles.map (·.1) := by
    rw [map_fst_assign]
    split
    · rename_i ha
      refine ⟨.inr, ?_⟩
      rintro (rfl | hb)
      · exact ha
      · exact hb
    · rw [List.mem_append, List.mem_singleton, or_comm]
  unfold merge
  split
  · rename_i known hknown
    split
    · refine ⟨.inr, ?_⟩
      rintro (rfl | hb)
      · exact mem_keys_of_lookup hknown
      · exact hb
    · exact hassign
  · exact hassign

theorem mem_merge {a : Asset} {handles : List (Address × Asset)} {e : Address × Asset}
    (h : e ∈ merge a handles) : e = (a.address, a) ∨ e ∈ handles := by
  unfold merge at h
  split at h
  · split at h
    · exact .inr h
    · exact mem_assign h
  · exact mem_assign h

/-- An address has a handle, or one for it is still on the worklist. -/
def Handled (v : Survey) (work : List Asset) (b : Address) : Prop :=
  b ∈ v.handles.map (·.1) ∨ ∃ a ∈ work, a.address = b

/-- What a survey of a sound catalog and its worklist satisfy while handles are followed. -/
structure Fits (home : ℕ → Address) (c : Catalog) (terminals : List Asset) (v : Survey)
    (work : List Asset) : Prop where
  output : ∀ e ∈ v.producers, e.2.output.address = e.1
  producers : ∀ e ∈ v.producers, e.1 ∈ v.handles.map (·.1)
  expanded : ∀ e ∈ v.producers, e.2.id ∈ v.expanded
  handles : ∀ e ∈ v.handles, e.2.address = e.1 ∧ c.Knows home e.2
  worklist : ∀ a ∈ work, c.Knows home a
  terminals : ∀ t ∈ terminals, v.Handled work t.address
  inputs : ∀ id ∈ v.expanded, ∀ s, c.step? id = some s → ∀ i ∈ s.inputs,
    v.Handled work i.2.address

section Sound

variable {home : ℕ → Address} {c : Catalog} {terminals : List Asset}

/-- Taking a handle off the worklist. -/
theorem Handled.merge {a : Asset} {work : List Asset} {b : Address}
    (h : v.Handled (a :: work) b) (more : List Asset) (producers : List (Address × Step))
    (expanded : List StepId) :
    Handled ⟨merge a v.handles, producers, expanded⟩ (more ++ work) b := by
  unfold Handled
  rw [mem_keys_merge]
  rcases h with hb | ⟨t, ht, rfl⟩
  · exact .inl (.inr hb)
  · rcases List.mem_cons.1 ht with rfl | ht
    · exact .inl (.inl rfl)
    · exact .inr ⟨t, List.mem_append_right _ ht, rfl⟩

theorem Fits.merge_handles {a : Asset} {work : List Asset}
    (h : Fits home c terminals v (a :: work)) :
    ∀ e ∈ merge a v.handles, e.2.address = e.1 ∧ c.Knows home e.2 := by
  intro e he
  rcases mem_merge he with rfl | he
  · exact ⟨rfl, h.worklist a List.mem_cons_self⟩
  · exact h.handles e he

/-- A turn that settles on no other producer. -/
theorem Fits.skip {a : Asset} {work : List Asset} (h : Fits home c terminals v (a :: work)) :
    Fits home c terminals { v with handles := merge a v.handles } work where
  output := h.output
  producers e he := mem_keys_merge.2 (.inr (h.producers e he))
  expanded := h.expanded
  handles := h.merge_handles
  worklist b hb := h.worklist b (List.mem_cons_of_mem _ hb)
  terminals t ht := (h.terminals t ht).merge [] _ _
  inputs id hid s hs i hi := (h.inputs id hid s hs i hi).merge [] _ _

/-- A turn that settles on a producer, whose inputs are put on the worklist unless they were there. -/
theorem Fits.win (hc : c.Sound home) {alive : List StepId} {a : Asset} {work : List Asset} {s : Step}
    {expanded : List StepId} (h : Fits home c terminals v (a :: work)) (more : List Asset)
    (hs : c.producer? alive a = some s)
    (hexpanded : ∀ id, id ∈ expanded ↔ id = s.id ∨ id ∈ v.expanded)
    (hmore : ∀ b ∈ more, ∃ i ∈ s.inputs, i.2 = b)
    (hinputs : s.id ∉ v.expanded → more = s.inputs.map (·.2)) :
    Fits home c terminals ⟨merge a v.handles, assign a.address s v.producers, expanded⟩
      (more ++ work) where
  output e he := by
    rcases mem_assign he with rfl | he
    · exact hc.address_of_producer? (h.worklist a List.mem_cons_self) hs
    · exact h.output e he
  producers e he := by
    rcases mem_assign he with rfl | he
    · exact mem_keys_merge.2 (.inl rfl)
    · exact mem_keys_merge.2 (.inr (h.producers e he))
  expanded e he := by
    rcases mem_assign he with rfl | he
    · exact (hexpanded _).2 (.inl rfl)
    · exact (hexpanded _).2 (.inr (h.expanded e he))
  handles := h.merge_handles
  worklist b hb := by
    rcases List.mem_append.1 hb with hb | hb
    · obtain ⟨i, hi, rfl⟩ := hmore b hb
      exact hc.inputs s (Catalog.mem_of_producer? hs) i hi
    · exact h.worklist b (List.mem_cons_of_mem _ hb)
  terminals t ht := (h.terminals t ht).merge more _ _
  inputs id hid t ht i hi := by
    by_cases hold : id ∈ v.expanded
    · exact (h.inputs id hold t ht i hi).merge more _ _
    · obtain rfl := ((hexpanded id).1 hid).resolve_right hold
      rw [Catalog.step?_of_producer? hs] at ht
      obtain rfl := Option.some.inj ht
      rw [hinputs hold]
      exact .inr ⟨i.2, List.mem_append_left _ (List.mem_map.2 ⟨i, hi, rfl⟩), rfl⟩

/-- **Following terminals of a sound catalog fits it.** -/
theorem fits_of_follow (hc : c.Sound home) (hterminals : ∀ t ∈ terminals, c.Knows home t)
    {alive : List StepId} (h : follow c alive empty terminals = .ok v) :
    Fits home c terminals v [] := by
  refine follow_induct (P := Fits home c terminals) ⟨fun v a work hv _ => hv.skip,
    fun v a work s hv hs _ hold => ?_, fun v a work s hv hs _ hfresh => ?_⟩ h ?_
  · refine hv.win hc [] hs (fun id => ⟨.inr, ?_⟩) (by simp) fun hfresh => absurd hold hfresh
    rintro (rfl | hid)
    · exact hold
    · exact hid
  · refine hv.win hc _ hs (fun id => List.mem_cons) (fun b hb => ?_) fun _ => rfl
    exact List.mem_map.1 hb
  · exact ⟨by simp [empty], by simp [empty], by simp [empty], by simp [empty], hterminals,
      fun t ht => .inr ⟨t, ht, rfl⟩, by simp [empty]⟩

end Sound

end Survey

end Provenance
