import Provenance.Proofs.Endings
import Provenance.Proofs.Run.Frame
import Provenance.Proofs.Run.Stable

/-!
# What a run leaves behind, and what the next one finds

A run of a graph that a client builds changes what the storage holds at the outputs of the steps that it
has completed and that had to be written, and nowhere else, however it ends.  The data that a graph starts
from is never touched.  So when a run has ended well, the next one finds what it needs and makes the same of
it: it ends well too, with the same data at the ends of the graph, and leaves what is stored as it is.

`storage_of_way` says both.
-/

namespace Provenance.Run

universe u w

variable {σ : Type u} {j j' : Setup σ} {s s' : State σ} {held : σ → Address → Option Dataset}
  {initial initial' : Address → Option Dataset}

/-- What a run that ends well reports at an address: what the address denotes, if it is an end of the graph
that a step writes. -/
theorem Valued.output?_eq_some_iff (hg : j.graph.Sound) (h : Valued j held initial s)
    (hs : Scheduled j s) (hover : s.phase = .over) {r : Report} (hr : j.outcome s = .ok r) {a : Address}
    {d : Dataset} : r.output? a = some d ↔ j.graph.isSink a = true ∧ (j.graph.producer? a).isSome ∧
      j.graph.Denotes initial a d := by
  obtain ⟨-, hall⟩ := hs.mem_done hg hover hr
  rw [output?_of_outcome hr, ← h.lookup_made_iff hg hall]
  split
  · rename_i hsink
    exact (and_iff_right hsink).symm
  · rename_i hsink
    exact ⟨fun hnone => absurd hnone (by simp), fun hd => absurd hd.1 hsink⟩

/-- **A run leaves behind what was there, with its own data where it had to write**, and the next run finds
itself there.

When a run is over, the output of each completed step that had to be written holds the one dataset that the
engine returned for it; every other address, and so every address that no step writes, holds what it held
before; and no more is done.  If the run has ended well, then every run of the graph that starts from there,
with the same policy and an undisturbed storage, keeps what is held all the time, comes to an end, and ends
well with the same outputs unless it has been stopped, as it is only when somebody has asked for it. -/
theorem storage_of_way {α : Type w} {s : Session α} (hs : s.Reachable) {terminals : List Asset}
    (hterminals : ∀ a ∈ terminals, s.Offers (.asset a)) {g : Graph}
    (hbuilt : s.graph terminals = .ok g) {σ : Type u} {j : Setup σ} (hj : j.graph = g)
    {held : σ → Address → Option Dataset} (hstore : j.store.Unharmed held) {store : σ} {stopAsked : Bool}
    {choices : List Choice} {history : List (ℕ × Deed)} {t : State σ}
    (hway : Way j (.initial store stopAsked) choices history t) (hover : t.phase = .over) :
    (∀ p step, j.step? p = some step → step.id ∈ t.completed.map (·.step) → j.mustWrite step = true →
      ∃ data, (∀ d, (p, .returned d) ∈ history ↔ d = data) ∧
        held t.store step.output.address = some data) ∧
    (∀ a, (∀ step ∈ g.steps, step.id ∈ t.completed.map (·.step) → j.mustWrite step = true →
      step.output.address ≠ a) → held t.store a = held store a) ∧
    (∀ a, g.producer? a = none → held t.store a = held store a) ∧
    (∀ choices' history' u, Way j t choices' history' u → history' = [] ∧ u.store = t.store) ∧
    ∀ r, j.outcome t = .ok r → j.CallsBodies → j.store.Undisturbed held →
      ∀ {j' : Setup σ}, j'.graph = g → j'.policy = j.policy → j'.store = j.store → j'.CallsBodies →
      ∀ {stopAsked' : Bool} {choices' : List Choice} {history' : List (ℕ × Deed)} {t' : State σ},
        Way j' (.initial t.store stopAsked') choices' history' t' →
        held t'.store = held t.store ∧
        choices'.countP (· ≠ .ask) ≤ j'.moves ∧
        (t'.phase ≠ .over → ∃ c u, c ≠ .ask ∧ j'.act t' c = some u) ∧
        (t'.stopped = true → t'.stopAsked = true) ∧
        (t'.phase = .over → t'.stopped = false →
          ∃ r', j'.outcome t' = .ok r' ∧ ∀ a, r'.output? a = r.output? a) := by
  subst hj
  have hg := Session.sound_of_graph hs hterminals hbuilt
  obtain ⟨hscheduled, hbooked⟩ := booked_of_way hway
  obtain ⟨-, hyielded⟩ := yielded_of_way hg hway
  have hframed : Framed held (held store) history t := framed_of_way hstore hway
  have hdone : ∀ p ∈ t.done, ∀ step, j.step? p = some step → step.id ∈ t.completed.map (·.step) :=
    fun p hp step hstep => hbooked.mem_completed_iff.2 ⟨p, hp, step, hstep, rfl⟩
  have hother : ∀ a, (∀ step ∈ j.graph.steps, step.id ∈ t.completed.map (·.step) →
      j.mustWrite step = true → step.output.address ≠ a) → held t.store a = held store a := by
    intro a ha
    exact hframed.held_of_other hscheduled hyielded hover fun p hp step hstep hwrite =>
      ha step (List.mem_of_getElem? hstep) (hdone p hp step hstep) hwrite
  refine ⟨fun p step hstep hcompleted hwrite => ?_, hother, fun a hnone => hother a ?_,
    fun choices' history' u hmore => eq_of_way_of_over hscheduled hover hmore, ?_⟩
  · obtain ⟨q, hq, other, hother, hid⟩ := hbooked.mem_completed_iff.1 hcompleted
    obtain rfl := place_eq_of_id_eq hg hother hstep hid
    exact hframed.held_of_done hg hscheduled hyielded hq hstep hwrite
  · rintro step hstep - - rfl
    rw [hg.producer?_output hstep] at hnone
    exact absurd hnone (by simp)
  · intro r hr hbodies hcalm j' hgraph hpolicy hsame hbodies' stopAsked' choices' history' t' hway'
    have hvalued := valued_of_reaches hg hbodies hstore.toRemembers hway.reaches
    obtain ⟨-, hall⟩ := hscheduled.mem_done hg hover hr
    -- what the first run leaves behind is stable, also for the second
    have hstable : j'.Stable (held t.store) := (hvalued.stable hall).congr hgraph hpolicy
    rw [← hgraph] at hg
    rw [← hsame] at hstore hcalm
    obtain ⟨hscheduled', hbooked'⟩ := booked_of_way hway'
    have hvalued' := valued_of_reaches hg hbodies' hstore.toRemembers hway'.reaches
    have hrepeats := repeats_of_way hg hbodies' hstore.toRemembers hcalm hstable hway'
    refine ⟨hrepeats.content, countP_le_moves_of_way hway', hscheduled'.exists_act,
      hbooked'.stopped, fun hover' hstopped => ?_⟩
    obtain ⟨r', hr'⟩ := exists_outcome (j := j') hrepeats.failure hstopped
    refine ⟨r', hr', fun a => Option.ext fun d => ?_⟩
    rw [hvalued'.output?_eq_some_iff hg hscheduled' hover' hr',
      hvalued.output?_eq_some_iff (hgraph ▸ hg) hscheduled hover hr, hgraph, hvalued.denotes_iff]

/-- The graph behind the report again, with up to two steps at once on the engines for their kinds. -/
def Late.again (target : Target) : Setup Memory :=
  Late.setup target (fun _ => .host) .engines .boundaries 2

/-- The end of a run that starts where the first one has ended. -/
def Late.repeated (target : Target) : State Memory :=
  (Late.again target).drive (Late.again target).moves
    (.initial (Late.ended (Late.alone target)).store false)

/-- The first run writes the report and leaves the raw data alone; the second run reports the same and
leaves the memory as it is. -/
theorem storage_of_way_late : ∃ history r r' data,
    (∃ choices, Way (Late.alone .default) (.initial Late.memory false) choices history
      (Late.ended (Late.alone .default))) ∧
    (Late.alone .default).outcome (Late.ended (Late.alone .default)) = .ok r ∧
    (1, .returned data) ∈ history ∧
    (Late.ended (Late.alone .default)).store.get? Session.Late.report.address = some data ∧
    (Late.ended (Late.alone .default)).store.get? Session.Late.raw.address =
      Late.memory.get? Session.Late.raw.address ∧
    (Late.again .default).outcome (Late.repeated .default) = .ok r' ∧
    r'.output? Session.Late.report.address = r.output? Session.Late.report.address ∧
    (Late.repeated .default).store.get? = (Late.ended (Late.alone .default)).store.get? := by
  obtain ⟨hover, r, hr⟩ := Late.alone_ends_well .default
  have hover' : ∀ target, (Late.repeated target).phase = .over := by
    intro target
    cbv
  have hstopped : ∀ target, (Late.repeated target).stopped = false := by
    intro target
    cbv
  have hcompleted : ∀ target, (Late.ended (Late.alone target)).completed.map (·.step) = [2, 1] := by
    intro target
    cbv
  have hwrite : ∀ target, (Late.alone target).mustWrite (Session.Late.older (Late.extend target)) = true := by
    intro target
    cbv
  have hsource : ∀ target, (Session.Late.graph (Late.extend target)).producer?
      Session.Late.raw.address = none := by
    intro target
    cbv
  obtain ⟨choices, history, hway⟩ := exists_way (Late.reaches_ended (Late.alone .default))
  obtain ⟨choices', history', hway'⟩ := exists_way
    ((Late.again .default).reaches_drive (Late.again .default).moves
      (.refl (.initial (Late.ended (Late.alone .default)).store false)))
  obtain ⟨hheld, -, hsources, -, hagain⟩ := storage_of_way
    (Session.Late.reachable (t := Late.extend .default) rfl) (Session.Late.offers _)
    (Session.Late.graph_eq _) rfl Memory.unharmed hway hover
  obtain ⟨data, hreturned, hreport⟩ := hheld 1 (Session.Late.older (Late.extend .default)) rfl
    (by rw [hcompleted]; decide) (hwrite _)
  obtain ⟨hkept, -, -, -, hends⟩ := hagain r hr (fun _ he => absurd he List.not_mem_nil)
    Memory.undisturbed (by rfl) (by rfl) (by rfl) (fun _ he => absurd he List.not_mem_nil) hway'
  obtain ⟨r', hr', houtput⟩ := hends (hover' _) (hstopped _)
  exact ⟨history, r, r', data, ⟨choices, hway⟩, hr, (hreturned data).2 rfl, hreport,
    hsources _ (hsource _), hr', houtput _, hkept⟩

end Provenance.Run
