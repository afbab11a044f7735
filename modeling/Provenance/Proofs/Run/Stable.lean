import Provenance.Proofs.Run.Values
import Provenance.Proofs.Run.Yield

/-!
# Runs that change nothing

What a storage holds is stable under a graph and a policy if the output of every step denotes something, and
if the storage holds just that wherever it has to be written (`Setup.Stable`).  A run that ends well leaves
something stable behind (`Valued.stable`).

A run that starts there and is not disturbed cannot fail and changes nothing (`Repeats`).  Whatever a worker
is to read is held: a step that is done had to write it and the storage held it all along, or no step writes
it and then it is held because the output of the reader denotes something.  The engine is applied to what
the inputs denote, so it returns what the output denotes; and what is written was held before.
-/

namespace Provenance.Run

universe u

variable {σ : Type u} {j j' : Setup σ} {s t : State σ} {choices : List Choice}
  {history : List (ℕ × Deed)} {held : σ → Address → Option Dataset}
  {initial content : Address → Option Dataset}

/-! ## 1.  Stable content -/

/-- The output of every step denotes something, and that is held where it has to be written. -/
def Setup.Stable (j : Setup σ) (content : Address → Option Dataset) : Prop :=
  ∀ step ∈ j.graph.steps, ∃ data, j.graph.Denotes content step.output.address data ∧
    (j.mustWrite step = true → content step.output.address = some data)

/-- What has to be written is a matter of the graph and the policy. -/
theorem Setup.Stable.congr (hgraph : j'.graph = j.graph) (hpolicy : j'.policy = j.policy)
    (h : j.Stable content) : j'.Stable content := by
  have hwrite : ∀ step, j'.mustWrite step = j.mustWrite step := by
    intro step
    unfold Setup.mustWrite
    rw [hgraph, hpolicy]
  unfold Setup.Stable
  rw [hgraph]
  intro step hstep
  rw [hwrite]
  exact h step hstep

/-- What addresses denote at first, they denote at any time of a run. -/
theorem Valued.denotes_iff (h : Valued j held initial s) {a : Address} {d : Dataset} :
    j.graph.Denotes (held s.store) a d ↔ j.graph.Denotes initial a d :=
  ⟨fun hd => hd.congr fun a hnone => (h.sources a hnone).symm, fun hd => hd.congr h.sources⟩

/-- **What is held once every step is done is stable.** -/
theorem Valued.stable (h : Valued j held initial s) (hall : ∀ p < j.graph.steps.length, p ∈ s.done) :
    j.Stable (held s.store) := by
  intro step hstep
  obtain ⟨p, hp⟩ := List.mem_iff_getElem?.1 hstep
  obtain ⟨data, -, hdenotes, hheld⟩ := h.done p (hall p (List.getElem?_eq_some_iff.1 hp).1) step hp
  exact ⟨data, h.denotes_iff.2 hdenotes, hheld⟩

/-- What a run has made once every step is done is what the outputs denote. -/
theorem Valued.lookup_made_iff (hg : j.graph.Sound) (h : Valued j held initial s)
    (hall : ∀ p < j.graph.steps.length, p ∈ s.done) {a : Address} {d : Dataset} :
    s.made.lookup a = some d ↔ (j.graph.producer? a).isSome ∧ j.graph.Denotes initial a d := by
  constructor
  · intro hlookup
    obtain ⟨p, hp, step, hstep, rfl⟩ := h.made a d hlookup
    obtain ⟨data, hmade, hdenotes, -⟩ := h.done p hp step hstep
    obtain rfl := Option.some.inj (hlookup.symm.trans hmade)
    rw [hg.producer?_output (List.mem_of_getElem? hstep)]
    exact ⟨rfl, hdenotes⟩
  · rintro ⟨hsome, hd⟩
    obtain ⟨step, hproducer⟩ := Option.isSome_iff_exists.1 hsome
    obtain ⟨hstep, rfl⟩ := (hg.producer?_eq_some_iff).1 hproducer
    obtain ⟨p, hp⟩ := List.mem_iff_getElem?.1 hstep
    obtain ⟨data, hmade, hdenotes, -⟩ := h.done p (hall p (List.getElem?_eq_some_iff.1 hp).1) step hp
    rw [hmade, hd.unique hg hdenotes]

section

variable (hg : j.graph.Sound) (hstable : j.Stable content)

include hg hstable

/-- Stable content has whatever a step leaves to the storage. -/
theorem Setup.Stable.exists_held {step : Step} (hstep : step ∈ j.graph.steps) {i : String × Asset}
    (hi : i ∈ step.inputs) {done : List ℕ} (hsettled : Settled j done i.2.address) :
    ∃ data, content i.2.address = some data := by
  rcases hsettled with hnone | ⟨p, -, producer, hp, hout, hwrite⟩
  · -- the output of the reader denotes something, so its inputs do
    obtain ⟨data, hdenotes, -⟩ := hstable step hstep
    obtain ⟨value, hinputs, -⟩ := hdenotes.exists_value hg hstep
    cases hinputs i hi with
    | source _ hheld => exact ⟨_, hheld⟩
    | made _ hproducer _ _ =>
      rw [hnone] at hproducer
      exact absurd hproducer (by simp)
  · obtain ⟨data, -, hheld⟩ := hstable producer (List.mem_of_getElem? hp)
    exact ⟨data, hout ▸ hheld hwrite⟩

/-! ## 2.  Runs that start from it -/

/-- The content of the storage has not changed, and nothing has failed. -/
structure Repeats (held : σ → Address → Option Dataset) (content : Address → Option Dataset)
    (s : State σ) : Prop where
  content : held s.store = content
  failure : s.failure = none
  working : ∀ p fault, s.working.lookup p ≠ some (.ended (.error fault))

omit hg hstable in
theorem repeats_initial (held : σ → Address → Option Dataset) (store : σ) (stopAsked : Bool) :
    Repeats held (held store) (.initial store stopAsked) := by
  constructor <;> simp [State.initial]

/-- **A worker changes nothing and does not fail.** -/
theorem Setup.Stable.advance (hbodies : j.CallsBodies) (hstore : j.store.Remembers held)
    (hcalm : j.store.Undisturbed held) (hcontent : held s.store = content) {step : Step}
    (hstep : step ∈ j.graph.steps) {stage stage' : Stage} {rest : State σ} {made : List Deed}
    (hworth : Worth j held content s.store s.done step stage) (hyields : j.Yields step made stage)
    (h : Advance j step s stage stage' rest) :
    held rest.store = content ∧ ∀ fault, stage' ≠ .ended (.error fault) := by
  obtain ⟨data, hdenotes, hheld⟩ := hstable step hstep
  cases h with
  | memory => exact ⟨hcontent, by simp⟩
  | stored hread => exact ⟨(hstore.read_held _ _ _ _ hread).trans hcontent, by simp⟩
  | @missed got param b rest fault store hread =>
    obtain ⟨taken, left, hinputs, -, -, hleft⟩ := hworth
    cases hleft with
    | @cons i r left rest hhead _ =>
      obtain ⟨-, haddress, hsettled⟩ := hhead
      obtain ⟨data, hdata⟩ := hstable.exists_held hg hstep (by rw [hinputs]; simp) hsettled
      have hok := hcalm.read b s.store data (by rw [hcontent, haddress, hdata])
      rw [hread] at hok
      exact absurd hok (by simp)
  | computed _ _ _ _ =>
    refine ⟨hcontent, fun fault => ?_⟩
    split <;> simp
  | @aborted got cause _ _ _ hresult =>
    obtain ⟨taken, left, hinputs, hnames, hgot, hleft⟩ := hworth
    obtain rfl := List.forall₂_nil_right_iff.1 hleft
    rw [List.append_nil] at hinputs
    rw [← hinputs, (hg.bound step hstep).params] at hnames
    rw [← hinputs] at hgot
    rw [hbodies.result, hdenotes.result_of_inputs hg hstep hnames hgot] at hresult
    exact absurd hresult (by simp)
  | @wrote written store hwrite =>
    obtain rfl := Graph.Denotes.unique hg hworth hdenotes
    refine ⟨funext fun a => ?_, by simp⟩
    by_cases ha : a = (j.handle step.output).address
    · rw [ha, hstore.write_ok _ _ _ _ hwrite, j.address_handle, hheld hyields.1]
    · rw [hstore.write_other _ _ _ _ _ hwrite a ha, hcontent]
  | @refused written fault store hrefused =>
    obtain rfl := Graph.Denotes.unique hg hworth hdenotes
    have hok := hcalm.write (j.handle step.output) s.store written
      (by rw [hcontent, j.address_handle, hheld hyields.1])
    rw [hrefused] at hok
    exact absurd hok (by simp)
  | noted => exact ⟨hcontent, by simp⟩

/-- **Every move repeats what was there.** -/
theorem Repeats.move (hbodies : j.CallsBodies) (hstore : j.store.Remembers held)
    (hcalm : j.store.Undisturbed held) {c : Choice} (h : Repeats held content s) (hs : Scheduled j s)
    (hvalued : Valued j held content s) (hyielded : Yielded j history s) (hmove : Move j s c t) :
    Repeats held content t := by
  cases hmove with
  | ask => exact ⟨h.content, h.failure, h.working⟩
  | wait _ _ _ _ => exact ⟨h.content, h.failure, h.working⟩
  | @start place step _ _ _ _ hready hstep =>
    refine ⟨h.content, h.failure, fun p fault => ?_⟩
    rw [hs.lookup_start hready hstep]
    split
    · simp
    · exact h.working p fault
  | close _ _ => exact ⟨h.content, h.failure, h.working⟩
  | @work place step stage stage' rest hstep hstage hadvance =>
    obtain ⟨hcontent, hhealthy⟩ := hstable.advance hg hbodies hstore hcalm h.content
      (List.mem_of_getElem? hstep) (hvalued.working place stage step hstage hstep)
      (hyielded.working place stage step hstage hstep) hadvance
    have hkeeps := hadvance.keeps (mem_busy_of_lookup hstage)
    refine ⟨hcontent, hkeeps.failure.trans h.failure, fun p fault => ?_⟩
    rw [hadvance.lookup_moveTo]
    split
    · exact fun heq => hhealthy fault (Option.some.inj heq)
    · exact h.working p fault
  | finish _ _ _ =>
    exact ⟨h.content, h.failure, fun p fault hlookup =>
      h.working p fault (lookup_unassign_eq_some_iff.1 hlookup).2⟩
  | fail _ _ hstage => exact absurd hstage (h.working _ _)

omit hstable in
/-- **A run that starts from stable content repeats it**, whatever choices are made. -/
theorem repeats_of_way (hbodies : j.CallsBodies) (hstore : j.store.Remembers held)
    (hcalm : j.store.Undisturbed held) {store : σ} (hstable : j.Stable (held store)) {stopAsked : Bool}
    (h : Way j (.initial store stopAsked) choices history s) : Repeats held (held store) s := by
  have hall : Scheduled j s ∧ Yielded j history s ∧ Valued j held (held store) s ∧
      Repeats held (held store) s := by
    refine h.invariant (P := fun _ history s => Scheduled j s ∧ Yielded j history s ∧
      Valued j held (held store) s ∧ Repeats held (held store) s) ?_
      ⟨scheduled_initial j store stopAsked, yielded_initial j store stopAsked,
        valued_initial j held store stopAsked, repeats_initial held store stopAsked⟩
    rintro choices history s c t ⟨hs, hyielded, hvalued, hrepeats⟩ hmove
    exact ⟨hs.move hmove, hyielded.move hg hs hmove, hvalued.move hg hbodies hstore hs hmove,
      hrepeats.move hg hstable hbodies hstore hcalm hs hvalued hyielded hmove⟩
  exact hall.2.2.2

end

end Provenance.Run
