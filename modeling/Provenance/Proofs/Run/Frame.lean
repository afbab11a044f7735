import Provenance.Proofs.Run.Booking
import Provenance.Proofs.Run.Yield
import Provenance.Proofs.Store

/-!
# What a run leaves in the storage

Workers write while others read, fail or are told to stop.  But a choice changes what is held at one address
at most, and if it does, the history of the run has the write (`held_of_move`).  So at any time the storage
holds at each address what was written there last in the run, and what it held before the run if nothing
was (`Framed`).

Once a run is over, whoever has written is done (`Yielded.mem_done_of_wrote`), and nothing is written any
more (`eq_of_way_of_over`).
-/

namespace Provenance.Run

universe u

variable {σ : Type u} {j : Setup σ} {s t : State σ} {choices : List Choice}
  {history more : List (ℕ × Deed)} {held : σ → Address → Option Dataset}
  {initial : Address → Option Dataset} {a : Address}

/-! ## 1.  The last write -/

/-- The data that was written last at an address. -/
def lastWrite? (history : List (ℕ × Deed)) (a : Address) : Option Dataset :=
  (writes history a).getLast?.map (·.2.2)

theorem lastWrite?_append :
    lastWrite? (history ++ more) a = (lastWrite? more a).or (lastWrite? history a) := by
  unfold lastWrite?
  rw [writes_append, List.getLast?_append, Option.map_or]

theorem lastWrite?_singleton (p : ℕ) (d : Deed) : lastWrite? [(p, d)] a = (d.write? a).map (·.2) := by
  unfold lastWrite? writes
  cases hd : d.write? a <;> simp [hd]

/-- At each address the storage holds what was written there last, or what it held at first. -/
def Framed (held : σ → Address → Option Dataset) (initial : Address → Option Dataset)
    (history : List (ℕ × Deed)) (s : State σ) : Prop :=
  ∀ a, held s.store a = (lastWrite? history a).or (initial a)

/-! ## 2.  What a choice changes -/

/-- A worker changes what is held where it writes, and that is what it has written. -/
theorem Advance.held_eq (hstore : j.store.Unharmed held) {step : Step} {stage stage' : Stage}
    {rest : State σ} (h : Advance j step s stage stage' rest) (place : ℕ) (a : Address) :
    held rest.store a =
      (lastWrite? ((j.deed? s step stage).toList.map (place, ·)) a).or (held s.store a) := by
  cases h with
  | memory => rfl
  | stored hread => exact congrFun (hstore.read_held _ _ _ _ hread) a
  | missed hread => exact congrFun (hstore.read_held _ _ _ _ hread) a
  | computed _ _ _ hresult =>
    rw [deed?_of_computed hresult]
    rfl
  | aborted _ _ _ hresult =>
    rw [deed?_of_aborted hresult]
    rfl
  | wrote hwrite =>
    rw [deed?_of_wrote hwrite, Option.toList_some, List.map_singleton, lastWrite?_singleton, Deed.write?]
    split
    · rename_i haddress
      exact haddress ▸ hstore.write_ok _ _ _ _ hwrite
    · rename_i haddress
      exact hstore.write_other _ _ _ _ _ hwrite a (Ne.symm haddress)
  | refused hrefused =>
    rw [deed?_of_refused hrefused]
    by_cases haddress : a = (j.handle step.output).address
    · rw [haddress]
      exact hstore.write_error _ _ _ _ _ hrefused
    · exact hstore.write_other _ _ _ _ _ hrefused a haddress
  | noted => rfl

/-- **A choice changes what is held where it writes**, and that is what it has written. -/
theorem held_of_move (hstore : j.store.Unharmed held) {c : Choice} (h : Move j s c t) (a : Address) :
    held t.store a = (lastWrite? (j.deeds s c t) a).or (held s.store a) := by
  cases h with
  | ask => rfl
  | wait _ _ _ _ => rw [deeds_turn]; rfl
  | start _ _ _ _ _ _ => rw [deeds_start]; rfl
  | close _ _ => rw [deeds_turn]; rfl
  | work hstep hstage hadvance =>
    rw [deeds_work hstep hstage]
    exact hadvance.held_eq hstore _ a
  | finish _ _ hstage => rw [deeds_finish hstage]; rfl
  | @fail place step fault _ _ hstage =>
    obtain ⟨failure, -, heq⟩ := failure_fail
      { s with phase := .filling, working := unassign place s.working } place step fault
    rw [deeds_fail hstage, heq]
    rfl

/-- **At all times the storage holds what was written last**, and otherwise what it held at first. -/
theorem framed_of_way (hstore : j.store.Unharmed held) (h : Way j s choices history t) :
    Framed held (held s.store) history t := by
  refine h.invariant (P := fun _ history t => Framed held (held s.store) history t) ?_ fun a => rfl
  intro choices history t c u hframed hmove a
  rw [held_of_move hstore hmove, hframed a, lastWrite?_append, Option.or_assoc]

/-! ## 3.  The end of a run -/

/-- Once a run is over, whoever has written is done. -/
theorem Yielded.mem_done_of_wrote (h : Yielded j history s) (hs : Scheduled j s) (hover : s.phase = .over)
    {p : ℕ} {b : Asset} {data : Dataset} (hwrote : (p, .wrote b data) ∈ history) : p ∈ s.done := by
  by_contra hnot
  refine h.spent p ?_ hnot b data (mem_products.2 ⟨hwrote, rfl⟩)
  rw [hs.ended hover]
  exact List.not_mem_nil

/-- The output of a step that is done holds what its engine returned, if it had to be written. -/
theorem Framed.held_of_done (hg : j.graph.Sound) (h : Framed held initial history s)
    (hs : Scheduled j s) (hyielded : Yielded j history s) {p : ℕ} (hp : p ∈ s.done) {step : Step}
    (hstep : j.step? p = some step) (hwrite : j.mustWrite step = true) :
    ∃ data, (∀ d, (p, .returned d) ∈ history ↔ d = data) ∧
      held s.store step.output.address = some data := by
  obtain ⟨data, -, hproducts⟩ := hyielded.done p hp step hstep
  refine ⟨data, fun d => returned_iff hproducts, ?_⟩
  rw [h, lastWrite?, hyielded.writes_eq hg hs hstep hproducts, if_pos hwrite]
  rfl

/-- All else is as it was at first. -/
theorem Framed.held_of_other (h : Framed held initial history s) (hs : Scheduled j s)
    (hyielded : Yielded j history s) (hover : s.phase = .over)
    (ha : ∀ p ∈ s.done, ∀ step, j.step? p = some step → j.mustWrite step = true →
      step.output.address ≠ a) : held s.store a = initial a := by
  have hnone : writes history a = [] := by
    by_contra hne
    obtain ⟨p, b, data, hwrote, hb⟩ := exists_wrote_of_writes_ne_nil hne
    obtain ⟨step, hstep, hwrite, rfl⟩ := hyielded.of_wrote hs hwrote
    rw [j.address_handle] at hb
    exact ha p (hyielded.mem_done_of_wrote hs hover hwrote) step hstep hwrite hb
  rw [h, lastWrite?, hnone]
  rfl

/-- **Nothing happens once a run is over**, but for requests to stop. -/
theorem eq_of_way_of_over (hs : Scheduled j s) (hover : s.phase = .over) (h : Way j s choices history t) :
    history = [] ∧ t.store = s.store := by
  have hworking : s.working = [] := List.map_eq_nil_iff.1 (hs.ended hover)
  have hall : history = [] ∧ t.store = s.store ∧ t.phase = .over ∧ t.working = [] := by
    refine h.invariant (P := fun _ history t => history = [] ∧ t.store = s.store ∧ t.phase = .over ∧
      t.working = []) ?_ ⟨rfl, rfl, hover, hworking⟩
    rintro choices history t c u ⟨rfl, hstore, hphase, hnone⟩ hmove
    cases hmove with
    | ask => exact ⟨rfl, hstore, hphase, hnone⟩
    | wait hfilling _ _ _ => exact absurd (hphase.symm.trans hfilling) (by simp)
    | start hfilling _ _ _ _ _ => exact absurd (hphase.symm.trans hfilling) (by simp)
    | close hwaiting _ => exact absurd (hphase.symm.trans hwaiting) (by simp)
    | work _ hstage _ =>
      rw [hnone] at hstage
      exact absurd hstage (by simp)
    | finish hwaiting _ _ => exact absurd (hphase.symm.trans hwaiting) (by simp)
    | fail hwaiting _ _ => exact absurd (hphase.symm.trans hwaiting) (by simp)
  exact ⟨hall.1, hall.2.1⟩

end Provenance.Run
