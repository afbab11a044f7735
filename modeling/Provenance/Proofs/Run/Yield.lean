import Provenance.Proofs.Run.History

/-!
# What steps hand to each other

Whether the data of a step is written is decided when the step has been computed, by who reads it;
whether an input is read from the storage is decided when the reader starts, by who produces it.  Here
the two decisions are shown to agree, and to come at the right time.

* The engine returns data to a step once, and the data is written once if it has to be, never otherwise
  (`Yielded`).  So at a stage of its worker, and when it is done, one knows all that a step has made
  (`Setup.harvest`).
* When a step starts, the producers of its inputs are done.  An input from a step of the same kind is
  what that step has made; one from a step of another kind is left to the storage, and then the producer
  had to write it, since it has a reader of another kind (`drawn_plan`).
* No two steps write to one address, so the one write of a producer is the only one there
  (`Yielded.writes_eq`).

The handle that data is written with and the one that it is read with are the same, since a graph has one
handle for an address that its steps touch (`handle_eq_of_address_eq`).
-/

namespace Provenance.Run

universe u

variable {σ : Type u} {j : Setup σ} {s t : State σ} {choices : List Choice}
  {history : List (ℕ × Deed)}

/-! ## 1.  What has to be written -/

/-- A graph has a handle for what each of its steps writes. -/
def Charted (g : Graph) : Prop := ∀ s ∈ g.steps, (g.asset? s.output.address).isSome

/-- Data of a step has to be written if everything has, if no step reads it, or if one of another kind
does. -/
theorem mustWrite_iff (hg : j.graph.Sound) (hcharted : Charted j.graph) {step : Step}
    (hstep : step ∈ j.graph.steps) : j.mustWrite step = true ↔ j.policy = .all ∨
      (∀ c ∈ j.graph.steps, ¬ c.ReadsFrom step.output.address) ∨
      ∃ c ∈ j.graph.steps, c.ReadsFrom step.output.address ∧ c.kind ≠ step.kind := by
  unfold Setup.mustWrite
  simp only [Bool.or_eq_true, beq_iff_eq, List.any_eq_true, bne_iff_ne, hg.mem_consumers_iff,
    hg.isSink_iff, hcharted step hstep, true_and, and_assoc, or_assoc]

/-- Where the graph has a handle for an address, that is the one that is used. -/
theorem handle_eq_of_address_eq {a b : Asset} (ha : (j.graph.asset? a.address).isSome)
    (h : a.address = b.address) : j.handle a = j.handle b := by
  obtain ⟨x, hx⟩ := Option.isSome_iff_exists.1 ha
  unfold Setup.handle
  rw [← h, hx]
  rfl

/-! ## 2.  What a step has made -/

/-- All that a step makes: its data, which is written if it has to be. -/
def Setup.harvest (j : Setup σ) (step : Step) (data : Dataset) : List Deed :=
  .returned data :: if j.mustWrite step then [.wrote (j.handle step.output) data] else []

theorem harvest_of_mustWrite {step : Step} (h : j.mustWrite step = true) (data : Dataset) :
    j.harvest step data = [.returned data, .wrote (j.handle step.output) data] := by
  unfold Setup.harvest
  rw [if_pos h]

theorem harvest_of_not_mustWrite {step : Step} (h : ¬ j.mustWrite step = true) (data : Dataset) :
    j.harvest step data = [.returned data] := by
  unfold Setup.harvest
  rw [if_neg h]

/-- A step that has made its data has got that data from its engine, and no other. -/
theorem returned_iff {history : List (ℕ × Deed)} {p : ℕ} {step : Step} {data d : Dataset}
    (h : products history p = j.harvest step data) : (p, .returned d) ∈ history ↔ d = data := by
  have hmem : (p, .returned d) ∈ history ↔ .returned d ∈ products history p := by
    rw [mem_products]
    exact (and_iff_left rfl).symm
  rw [hmem, h]
  unfold Setup.harvest
  rw [List.mem_cons, Deed.returned.injEq, or_iff_left]
  split <;> simp

/-- What a step has made when its worker is at a stage.  A step that has failed may have got its data,
but has not written it. -/
def Setup.Yields (j : Setup σ) (step : Step) (made : List Deed) : Stage → Prop
  | .reading _ _ => made = []
  | .writing data => j.mustWrite step = true ∧ made = [.returned data]
  | .noting data => made = j.harvest step data
  | .ended (.ok data) => made = j.harvest step data
  | .ended (.error _) => ∀ a data, .wrote a data ∉ made

/-- Where an input of a step comes from: an asset that no step produces is read from the storage, and so
is one that a step of another kind produces.  The others are what their producers have made. -/
def Setup.Drawn (j : Setup σ) (history : List (ℕ × Deed)) (done : List ℕ) (step : Step) (a : Asset)
    (source : Source) : Prop :=
  match j.graph.producer? a.address with
  | none => source = .storage (j.handle a)
  | some producer => ∃ q ∈ done, j.step? q = some producer ∧ ∃ data,
      products history q = j.harvest producer data ∧
        source = if producer.kind = step.kind then .memory data else .storage (j.handle a)

/-- Whether a step leaves an asset to the storage. -/
def Setup.Stored (j : Setup σ) (step : Step) (a : Asset) : Prop :=
  ∃ i ∈ step.inputs, a = j.handle i.2 ∧
    ∀ producer, j.graph.producer? i.2.address = some producer → producer.kind ≠ step.kind

/-- What each step has made so far is known, and so is what is left to the storage. -/
structure Yielded (j : Setup σ) (history : List (ℕ × Deed)) (s : State σ) : Prop where
  fresh : ∀ p ∉ s.started, products history p = []
  working : ∀ p stage step, s.working.lookup p = some stage → j.step? p = some step →
    j.Yields step (products history p) stage
  done : ∀ p ∈ s.done, ∀ step, j.step? p = some step → ∃ data,
    s.made.lookup step.output.address = some data ∧ products history p = j.harvest step data
  spent : ∀ p, p ∉ s.busy → p ∉ s.done → ∀ a data, .wrote a data ∉ products history p
  stored : ∀ p got rest step, s.working.lookup p = some (.reading got rest) →
    j.step? p = some step → ∀ param a, (param, .storage a) ∈ rest → j.Stored step a
  written : s.written = ((s.done.filterMap j.step?).filter j.mustWrite).map (·.output.address)

theorem yielded_initial (j : Setup σ) (store : σ) (stopAsked : Bool) :
    Yielded j [] (.initial store stopAsked) := by
  constructor <;> simp [State.initial, products]

/-! ## 3.  What moves add -/

theorem products_singleton {d : Deed} (hd : d.isProduct = false) (place p : ℕ) :
    products [(place, d)] p = [] := by
  unfold products
  simp [hd]

/-- What a worker makes in one move. -/
def Setup.product? (j : Setup σ) (s : State σ) (step : Step) (stage : Stage) : List Deed :=
  (j.deed? s step stage).toList.filter Deed.isProduct

theorem product?_of_some {step : Step} {stage : Stage} {d : Deed} (h : j.deed? s step stage = some d)
    (hd : d.isProduct = true) : j.product? s step stage = [d] := by
  unfold Setup.product?
  rw [h, Option.toList_some, List.filter_cons_of_pos hd, List.filter_nil]

theorem product?_of_none {step : Step} {stage : Stage} (h : j.deed? s step stage = none) :
    j.product? s step stage = [] := by
  unfold Setup.product?
  rw [h, Option.toList_none, List.filter_nil]

theorem products_work (d? : Option Deed) (place p : ℕ) :
    products (d?.toList.map (place, ·)) p =
      if p = place then d?.toList.filter Deed.isProduct else [] := by
  unfold products
  cases d? with
  | none => simp
  | some d =>
    by_cases hp : p = place
    · subst hp
      by_cases hd : d.isProduct <;> simp [hd]
    · simp [hp, Ne.symm hp]

/-- A worker that moves adds what its next stage asks for. -/
theorem Advance.yields {step : Step} {stage stage' : Stage} {rest : State σ}
    (h : Advance j step s stage stage' rest) {made : List Deed} (hmade : j.Yields step made stage) :
    j.Yields step (made ++ j.product? s step stage) stage' := by
  cases h with
  | memory =>
    obtain rfl : made = [] := hmade
    rfl
  | stored _ =>
    obtain rfl : made = [] := hmade
    rfl
  | missed _ =>
    obtain rfl : made = [] := hmade
    exact fun a data => List.not_mem_nil
  | @computed got data _ _ _ hresult =>
    obtain rfl : made = [] := hmade
    rw [product?_of_some (deed?_of_computed hresult) rfl]
    split
    · rename_i hwrite
      exact ⟨hwrite, rfl⟩
    · rename_i hwrite
      exact (harvest_of_not_mustWrite hwrite data).symm
  | aborted _ _ _ hresult =>
    obtain rfl : made = [] := hmade
    rw [product?_of_none (deed?_of_aborted hresult)]
    exact fun a data => List.not_mem_nil
  | @wrote data store hwritten =>
    obtain ⟨hwrite, rfl⟩ := hmade
    rw [product?_of_some (deed?_of_wrote hwritten) rfl]
    exact (harvest_of_mustWrite hwrite data).symm
  | refused hrefused =>
    obtain ⟨-, rfl⟩ := hmade
    rw [product?_of_none (deed?_of_refused hrefused)]
    exact fun a data => by simp
  | @noted data =>
    unfold Setup.Yields at hmade ⊢
    rw [product?_of_none rfl, List.append_nil, hmade]

/-- Workers do not list what they write; the scheduler does. -/
theorem Advance.written {step : Step} {stage stage' : Stage} {rest : State σ}
    (h : Advance j step s stage stage' rest) : rest.written = s.written := by
  cases h <;> rfl

/-- A worker that moves has no more left to the storage than before. -/
theorem Advance.reading {step : Step} {stage : Stage} {got : Inputs} {left : List (String × Source)}
    {rest : State σ} (h : Advance j step s stage (.reading got left) rest) :
    ∃ got' r, stage = .reading got' (r :: left) := by
  generalize hstage' : Stage.reading got left = stage' at h
  cases h with
  | memory =>
    obtain ⟨rfl, rfl⟩ := Stage.reading.inj hstage'
    exact ⟨_, _, rfl⟩
  | stored _ =>
    obtain ⟨rfl, rfl⟩ := Stage.reading.inj hstage'
    exact ⟨_, _, rfl⟩
  | computed _ _ _ _ => split at hstage' <;> exact absurd hstage' (by simp)
  | _ => exact absurd hstage' (by simp)

section

variable (hg : j.graph.Sound)

include hg

/-- **Every input comes from where it should.**  A step that is ready waits for none of the steps that
produce its inputs, so what they have made is known. -/
theorem drawn_plan (h : Yielded j history s) {place : ℕ} {step : Step}
    (hstep : j.step? place = some step) (hawaits : ∀ q ∈ j.awaits step, q ∈ s.done) :
    List.Forall₂ (fun i r => r.1 = i.1 ∧ j.Drawn history s.done step i.2 r.2) step.inputs
      (j.plan step s.made) := by
  refine forall₂_plan hg hstep hawaits (fun i _ hnone => ⟨rfl, ?_⟩)
    fun i _ q hdone producer hq hproducer _ => ?_
  · unfold Setup.Drawn
    rw [hnone]
  · obtain ⟨data, hmade, hproducts⟩ := h.done q hdone producer hq
    refine ⟨data, hmade, rfl, ?_⟩
    unfold Setup.Drawn
    rw [hproducer]
    exact ⟨q, hdone, hq, data, hproducts, rfl⟩

omit hg in
/-- What is drawn from the storage is left to it. -/
theorem Setup.Drawn.stored {done : List ℕ} {step : Step} {i : String × Asset} (hi : i ∈ step.inputs)
    {a : Asset} (h : j.Drawn history done step i.2 (.storage a)) : j.Stored step a := by
  unfold Setup.Drawn at h
  split at h
  · rename_i hproducer
    exact ⟨i, hi, Source.storage.inj h, fun producer hsome => absurd (hproducer.symm.trans hsome) (by simp)⟩
  · rename_i producer hproducer
    obtain ⟨_, _, _, _, _, hsource⟩ := h
    have hkind : producer.kind ≠ step.kind := by
      intro hkind
      rw [if_pos hkind] at hsource
      exact absurd hsource (by simp)
    rw [if_neg hkind] at hsource
    refine ⟨i, hi, Source.storage.inj hsource, fun other hother => ?_⟩
    rw [hproducer] at hother
    rwa [← Option.some.inj hother]

theorem Yielded.start (h : Yielded j history s) (hs : Scheduled j s) {place : ℕ} {step : Step}
    (hready : j.nextReady? s = some place) (hstep : j.step? place = some step) :
    Yielded j (history ++ j.deeds s .schedule (j.start s place step)) (j.start s place step) := by
  obtain ⟨hfresh, hawaits⟩ := ready_of_nextReady? hready hstep
  have hproducts : ∀ p, products (history ++ j.deeds s .schedule (j.start s place step)) p =
      products history p := by
    intro p
    rw [deeds_start, products_append, products_singleton rfl, List.append_nil]
  constructor
  case fresh =>
    intro p hp
    rw [hproducts]
    exact h.fresh p fun hmem => hp (List.mem_append_left _ hmem)
  case working =>
    intro p stage other hstage hother
    rw [hproducts]
    rcases hs.of_lookup_start hready hstep hother hstage with ⟨rfl, -, rfl⟩ | ⟨-, hstage⟩
    · exact h.fresh p hfresh
    · exact h.working p stage other hstage hother
  case done =>
    intro p hp other hother
    rw [hproducts]
    exact h.done p hp other hother
  case spent =>
    intro p hbusy hdone
    rw [hproducts]
    have hmore : (j.start s place step).busy = s.busy ++ [place] := List.map_append
    exact h.spent p (fun hmem => hbusy (hmore ▸ List.mem_append_left _ hmem)) hdone
  case stored =>
    intro p got rest other hstage hother param a hmem
    rcases hs.of_lookup_start hready hstep hother hstage with ⟨rfl, rfl, hreading⟩ | ⟨-, hstage⟩
    · obtain ⟨-, rfl⟩ := Stage.reading.inj hreading
      obtain ⟨i, hi, -, hdrawn⟩ := exists_of_forall₂_right (drawn_plan hg h hstep hawaits) hmem
      exact hdrawn.stored hi
    · exact h.stored p got rest other hstage hother param a hmem
  case written => exact h.written

omit hg in
theorem Yielded.work (h : Yielded j history s) (hs : Scheduled j s) {place : ℕ} {step : Step}
    {stage stage' : Stage} {rest : State σ} (hstep : j.step? place = some step)
    (hstage : s.working.lookup place = some stage) (hadvance : Advance j step s stage stage' rest) :
    Yielded j (history ++ j.deeds s (.work place) (rest.moveTo place stage'))
      (rest.moveTo place stage') := by
  have hbusy := mem_busy_of_lookup hstage
  have hkeeps := hadvance.keeps hbusy
  have hproducts : ∀ p, products (history ++ j.deeds s (.work place) (rest.moveTo place stage')) p =
      products history p ++ if p = place then j.product? s step stage else [] := by
    intro p
    rw [deeds_work hstep hstage, products_append, products_work]
    rfl
  have hother : ∀ p, p ≠ place →
      products (history ++ j.deeds s (.work place) (rest.moveTo place stage')) p = products history p := by
    intro p hp
    rw [hproducts, if_neg hp, List.append_nil]
  constructor
  case fresh =>
    intro p hp
    rw [hkeeps.started] at hp
    have hne : p ≠ place := fun heq => hp (heq ▸ hs.busyStarted place hbusy)
    rw [hother p hne]
    exact h.fresh p hp
  case working =>
    intro p found other hfound hp
    rcases hadvance.of_lookup hstep hp hfound with ⟨rfl, rfl, rfl⟩ | ⟨hne, hfound⟩
    · rw [hproducts, if_pos rfl]
      exact hadvance.yields (h.working p stage other hstage hstep)
    · rw [hother p hne]
      exact h.working p found other hfound hp
  case done =>
    intro p hp other hp'
    rw [hkeeps.done] at hp
    have hne : p ≠ place := fun heq => hs.apart place hbusy (heq ▸ hp)
    rw [hkeeps.made, hother p hne]
    exact h.done p hp other hp'
  case spent =>
    intro p hidle hdone
    rw [hkeeps.busy] at hidle
    rw [hkeeps.done] at hdone
    have hne : p ≠ place := fun heq => hidle (heq ▸ hbusy)
    rw [hother p hne]
    exact h.spent p hidle hdone
  case stored =>
    intro p got left other hfound hp param a hmem
    rcases hadvance.of_lookup hstep hp hfound with ⟨rfl, -, rfl⟩ | ⟨-, hfound⟩
    · obtain ⟨got', r, rfl⟩ := hadvance.reading
      exact h.stored p got' (r :: left) other hstage hp param a (List.mem_cons_of_mem _ hmem)
    · exact h.stored p got left other hfound hp param a hmem
  case written =>
    rw [hkeeps.done]
    exact hadvance.written.trans h.written

omit hg in
/-- A worker is picked up, and makes nothing any more. -/
theorem Yielded.collect (h : Yielded j history s) {place : ℕ} {d : Deed} (hd : d.isProduct = false)
    (hworking : t.working = unassign place s.working) (hstarted : t.started = s.started)
    (hmore : ∀ p ∈ s.done, p ∈ t.done)
    (hdone : ∀ p ∈ t.done, ∀ step, j.step? p = some step → ∃ data,
      t.made.lookup step.output.address = some data ∧ products history p = j.harvest step data)
    (hspent : place ∉ t.done → ∀ a data, .wrote a data ∉ products history place)
    (hwritten : t.written = ((t.done.filterMap j.step?).filter j.mustWrite).map (·.output.address)) :
    Yielded j (history ++ [(place, d)]) t := by
  have hproducts : ∀ p, products (history ++ [(place, d)]) p = products history p := by
    intro p
    rw [products_append, products_singleton hd, List.append_nil]
  have hlookup : ∀ p stage, t.working.lookup p = some stage → s.working.lookup p = some stage := by
    intro p stage hstage
    rw [hworking] at hstage
    exact (lookup_unassign_eq_some_iff.1 hstage).2
  constructor
  case fresh =>
    intro p hp
    rw [hproducts]
    exact h.fresh p (hstarted ▸ hp)
  case working =>
    intro p stage step hstage hstep
    rw [hproducts]
    exact h.working p stage step (hlookup p stage hstage) hstep
  case done =>
    intro p hp step hstep
    rw [hproducts]
    exact hdone p hp step hstep
  case spent =>
    intro p hidle hp
    rw [hproducts]
    by_cases hne : p = place
    · subst hne
      exact hspent hp
    · refine h.spent p (fun hbusy => hidle ?_) fun hmem => hp (hmore p hmem)
      show p ∈ t.working.map (·.1)
      rw [hworking]
      exact mem_keys_unassign.2 ⟨hbusy, hne⟩
  case stored => exact fun p got left step hstage => h.stored p got left step (hlookup p _ hstage)
  case written => exact hwritten

theorem Yielded.finish (h : Yielded j history s) {place : ℕ} {step : Step}
    {data : Dataset} (hstep : j.step? place = some step)
    (hstage : s.working.lookup place = some (.ended (.ok data))) :
    Yielded j (history ++ j.deeds s (.collect place) t) (j.finish
      { s with phase := .filling, working := unassign place s.working } place step data) := by
  have hbusy := mem_busy_of_lookup hstage
  rw [deeds_finish hstage]
  refine h.collect rfl rfl rfl (fun p hp => List.mem_append_left _ hp) (fun p hp other hother => ?_)
    (fun hnot => absurd (List.mem_append_right _ (List.mem_singleton_self place)) hnot) ?_
  · have hmade := lookup_assign step.output.address other.output.address data s.made
    by_cases hne : p = place
    · subst hne
      rw [hstep] at hother
      obtain rfl := Option.some.inj hother
      exact ⟨data, hmade.trans (if_pos rfl), h.working p _ step hstage hstep⟩
    · have hp : p ∈ s.done := (List.mem_append.1 hp).resolve_right (by simpa using hne)
      obtain ⟨data', hlookup, hproducts⟩ := h.done p hp other hother
      refine ⟨data', ?_, hproducts⟩
      exact (hmade.trans (if_neg (output_ne_of_place_ne hg hother hstep hne))).trans hlookup
  · have hlist : ((s.done ++ [place]).filterMap j.step?).filter j.mustWrite =
        (s.done.filterMap j.step?).filter j.mustWrite ++ [step].filter j.mustWrite := by
      rw [List.filterMap_append, List.filter_append]
      simp [hstep]
    show (if j.mustWrite step then s.written ++ [step.output.address] else s.written) =
      (((s.done ++ [place]).filterMap j.step?).filter j.mustWrite).map (·.output.address)
    rw [hlist, List.map_append, ← h.written]
    split
    · rename_i hwrite
      simp [hwrite]
    · rename_i hwrite
      simp [hwrite]

omit hg in
theorem Yielded.fail (h : Yielded j history s) {place : ℕ} {step : Step} {fault : Fault}
    (hstep : j.step? place = some step)
    (hstage : s.working.lookup place = some (.ended (.error fault))) :
    Yielded j (history ++ j.deeds s (.collect place) t) (Setup.fail
      { s with phase := .filling, working := unassign place s.working } place step fault) := by
  obtain ⟨failure, -, heq⟩ := failure_fail
    { s with phase := .filling, working := unassign place s.working } place step fault
  rw [heq, deeds_fail hstage]
  exact h.collect rfl rfl rfl (fun _ hp => hp) h.done
    (fun _ => h.working place _ step hstage hstep) h.written

/-- **Every move keeps what steps have made known.** -/
theorem Yielded.move {c : Choice} (h : Yielded j history s) (hs : Scheduled j s)
    (hmove : Move j s c t) : Yielded j (history ++ j.deeds s c t) t := by
  have hsame : ∀ t : State σ, t.started = s.started → t.working = s.working → t.done = s.done →
      t.made = s.made → t.written = s.written → Yielded j history t := by
    intro t hstarted hworking hdone hmade hwritten
    refine ⟨?_, ?_, ?_, ?_, ?_, ?_⟩
    · rw [hstarted]; exact h.fresh
    · rw [hworking]; exact h.working
    · rw [hdone, hmade]; exact h.done
    · rw [State.busy, hworking, hdone]; exact h.spent
    · rw [hworking]; exact h.stored
    · rw [hwritten, hdone]; exact h.written
  cases hmove with
  | ask =>
    rw [show j.deeds s .ask _ = [] from rfl, List.append_nil]
    exact hsame _ rfl rfl rfl rfl rfl
  | wait _ _ _ _ =>
    rw [deeds_turn, List.append_nil]
    exact hsame _ rfl rfl rfl rfl rfl
  | start _ _ _ _ hready hstep => exact h.start hg hs hready hstep
  | close _ _ =>
    rw [deeds_turn, List.append_nil]
    exact hsame _ rfl rfl rfl rfl rfl
  | work hstep hstage hadvance => exact h.work hs hstep hstage hadvance
  | finish _ hstep hstage => exact h.finish hg hstep hstage
  | fail _ hstep hstage => exact h.fail hstep hstage

theorem yielded_of_way {store : σ} {stopAsked : Bool}
    (h : Way j (.initial store stopAsked) choices history s) : Scheduled j s ∧ Yielded j history s := by
  refine h.invariant (P := fun _ history s => Scheduled j s ∧ Yielded j history s) ?_
    ⟨scheduled_initial j store stopAsked, yielded_initial j store stopAsked⟩
  rintro choices history s c t ⟨hs, hyielded⟩ hmove
  exact ⟨hs.move hmove, hyielded.move hg hs hmove⟩

end

/-! ## 4.  Writes -/

/-- What a deed writes at an address. -/
def Deed.write? (a : Address) : Deed → Option (Asset × Dataset)
  | .wrote b data => if b.address = a then some (b, data) else none
  | _ => none

/-- The writes at an address: the place of the step, the handle that it wrote with, and the data. -/
def writes (history : List (ℕ × Deed)) (a : Address) : List (ℕ × Asset × Dataset) :=
  history.filterMap fun e => (e.2.write? a).map (e.1, ·)

@[simp] theorem writes_append (history more : List (ℕ × Deed)) (a : Address) :
    writes (history ++ more) a = writes history a ++ writes more a :=
  List.filterMap_append

theorem Deed.write?_eq_some {a : Address} {d : Deed} {w : Asset × Dataset} :
    d.write? a = some w ↔ d = .wrote w.1 w.2 ∧ w.1.address = a := by
  obtain ⟨b, data⟩ := w
  unfold Deed.write?
  cases d with
  | wrote b' data' =>
    simp only [Option.ite_none_right_eq_some, Option.some.injEq, Prod.mk.injEq, Deed.wrote.injEq]
    constructor
    · rintro ⟨ha, rfl, rfl⟩
      exact ⟨⟨rfl, rfl⟩, ha⟩
    · rintro ⟨⟨rfl, rfl⟩, ha⟩
      exact ⟨ha, rfl, rfl⟩
  | _ => simp

theorem exists_wrote_of_writes_ne_nil {a : Address} (h : writes history a ≠ []) :
    ∃ p b data, (p, .wrote b data) ∈ history ∧ b.address = a := by
  obtain ⟨w, hw⟩ := List.exists_mem_of_ne_nil _ h
  obtain ⟨⟨p, d⟩, hd, hwrite⟩ := List.mem_filterMap.1 hw
  obtain ⟨⟨b, data⟩, hsome, -⟩ := Option.map_eq_some_iff.1 hwrite
  obtain ⟨rfl, ha⟩ := Deed.write?_eq_some.1 hsome
  exact ⟨p, b, data, hd, ha⟩

/-- Where one step alone writes at an address, its products tell all the writes there. -/
theorem writes_eq_of_forall {a : Address} {q : ℕ}
    (h : ∀ p b data, (p, .wrote b data) ∈ history → b.address = a → p = q) :
    writes history a = ((products history q).filterMap (·.write? a)).map (q, ·) := by
  induction history with
  | nil => rfl
  | cons e history ih =>
    obtain ⟨p, d⟩ := e
    have ih := ih fun p b data hmem => h p b data (List.mem_cons_of_mem _ hmem)
    have hhead : writes [(p, d)] a = ((products [(p, d)] q).filterMap (·.write? a)).map (q, ·) := by
      unfold writes products
      cases hwrite : d.write? a with
      | none => by_cases hp : p = q <;> by_cases hd : d.isProduct <;> simp [hwrite, hp, hd]
      | some w =>
        obtain ⟨rfl, ha⟩ := Deed.write?_eq_some.1 hwrite
        obtain rfl := h p w.1 w.2 List.mem_cons_self ha
        simp [hwrite, Deed.isProduct]
    rw [← List.singleton_append, writes_append, products_append, List.filterMap_append,
      List.map_append, hhead, ih]

theorem wrote_mem_harvest {step : Step} {data data' : Dataset} {a : Asset}
    (h : .wrote a data' ∈ j.harvest step data) : j.mustWrite step = true ∧ a = j.handle step.output := by
  by_cases hwrite : j.mustWrite step = true
  · rw [harvest_of_mustWrite hwrite] at h
    simp only [List.mem_cons, reduceCtorEq, Deed.wrote.injEq, List.not_mem_nil, or_false,
      false_or] at h
    exact ⟨hwrite, h.1⟩
  · rw [harvest_of_not_mustWrite hwrite] at h
    exact absurd h (by simp)

/-- A step writes its own output alone, and only if it has to. -/
theorem Yielded.of_wrote (h : Yielded j history s) (hs : Scheduled j s) {p : ℕ} {a : Asset}
    {data : Dataset} (hwrote : (p, .wrote a data) ∈ history) :
    ∃ step, j.step? p = some step ∧ j.mustWrite step = true ∧ a = j.handle step.output := by
  have hmem : .wrote a data ∈ products history p := mem_products.2 ⟨hwrote, rfl⟩
  have hbusy : p ∈ s.busy ∨ p ∈ s.done := by
    by_contra hnone
    rw [not_or] at hnone
    exact h.spent p hnone.1 hnone.2 a data hmem
  have hstarted : p ∈ s.started := hbusy.elim (hs.busyStarted p) (hs.doneStarted p)
  have hplace := hs.placed p hstarted
  have hstep : j.step? p = some j.graph.steps[p] := List.getElem?_eq_getElem hplace
  refine ⟨_, hstep, ?_⟩
  rcases hbusy with hbusy | hdone
  · obtain ⟨stage, hstage⟩ := exists_lookup_of_mem_keys hbusy
    have hyields := h.working p stage _ hstage hstep
    cases stage with
    | reading got rest =>
      rw [show products history p = [] from hyields] at hmem
      exact absurd hmem List.not_mem_nil
    | writing made =>
      rw [hyields.2] at hmem
      exact absurd hmem (by simp)
    | noting made =>
      rw [show products history p = _ from hyields] at hmem
      exact wrote_mem_harvest hmem
    | ended result =>
      cases result with
      | ok made =>
        rw [show products history p = _ from hyields] at hmem
        exact wrote_mem_harvest hmem
      | error fault => exact absurd hmem (hyields a data)
  · obtain ⟨made, -, hmade⟩ := h.done p hdone _ hstep
    rw [hmade] at hmem
    exact wrote_mem_harvest hmem

/-- **The writes at the output of a step are its own.** -/
theorem Yielded.writes_eq (hg : j.graph.Sound) (h : Yielded j history s) (hs : Scheduled j s) {q : ℕ}
    {step : Step} (hq : j.step? q = some step) {data : Dataset}
    (hmade : products history q = j.harvest step data) :
    writes history step.output.address =
      if j.mustWrite step then [(q, j.handle step.output, data)] else [] := by
  have honly : ∀ p b d, (p, .wrote b d) ∈ history → b.address = step.output.address → p = q := by
    intro p b d hwrote hb
    obtain ⟨other, hother, -, rfl⟩ := h.of_wrote hs hwrote
    rw [j.address_handle] at hb
    by_contra hne
    exact output_ne_of_place_ne hg hother hq hne hb
  rw [writes_eq_of_forall honly, hmade]
  split
  · rename_i hwrite
    rw [harvest_of_mustWrite hwrite]
    simp [Deed.write?, j.address_handle]
  · rename_i hwrite
    rw [harvest_of_not_mustWrite hwrite]
    simp [Deed.write?]

end Provenance.Run
