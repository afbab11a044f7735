import Provenance.Proofs.Graph.Values
import Provenance.Proofs.Run.Schedule
import Provenance.Proofs.Store

/-!
# What a run computes

The data of a step reaches its readers in memory or through the storage, and while one step reads others
write.  Nevertheless every step that is done has made what its output denotes (`Valued`), and this does
not depend on any of the choices.

Three things make it so.  A step starts after the steps that write what it reads, and their data is
settled by then: it is in memory, and in the storage if it has to be.  Data that is to be taken from the
storage has to be written, since its reader is of another kind than its producer (`feeds_plan`).  And a
write changes one address, which is that of a step that is not done yet, so no reader looks there.
-/

namespace Provenance.Run

universe u

variable {σ : Type u} {j : Setup σ} {s t : State σ} {held : σ → Address → Option Dataset}
  {initial : Address → Option Dataset}

/-- Engines that compute what the bodies of the tasks compute. -/
def Setup.CallsBodies (j : Setup σ) : Prop :=
  ∀ e ∈ j.engines, ∀ step inputs, (e.2.perform step inputs).result = (step.task.body inputs).result

theorem Setup.CallsBodies.result (h : j.CallsBodies) (step : Step) (inputs : Inputs) :
    ((j.engine step).perform step inputs).result = (step.task.body inputs).result := by
  unfold Setup.engine
  split
  · rfl
  · cases hengine : j.engines.lookup step.kind with
    | none => rfl
    | some e => exact h _ (mem_of_lookup hengine) step inputs

/-- The data of an address is settled in the storage: no step writes it, or one that is done has. -/
def Settled (j : Setup σ) (done : List ℕ) (a : Address) : Prop :=
  j.graph.producer? a = none ∨
    ∃ p ∈ done, ∃ step, j.step? p = some step ∧ step.output.address = a ∧ j.mustWrite step = true

/-- A source gives what an asset denotes. -/
def Feeds (j : Setup σ) (initial : Address → Option Dataset) (done : List ℕ) (a : Asset) :
    Source → Prop
  | .memory data => j.graph.Denotes initial a.address data
  | .storage b => b.address = a.address ∧ Settled j done a.address

/-- A worker has taken some inputs of its step, and has good sources for those that are left. -/
def Fed (j : Setup σ) (initial : Address → Option Dataset) (done : List ℕ) (step : Step) (got : Inputs)
    (rest : List (String × Source)) : Prop :=
  ∃ taken left, step.inputs = taken ++ left ∧ got.names = (taken.map (·.1)).eraseDups ∧
    (∀ e ∈ got.entries, ∃ i ∈ taken, i.1 = e.1 ∧ j.graph.Denotes initial i.2.address e.2) ∧
    List.Forall₂ (fun i r => r.1 = i.1 ∧ Feeds j initial done i.2 r.2) left rest

/-- What the data of a step is worth at a stage of its worker. -/
def Worth (j : Setup σ) (held : σ → Address → Option Dataset) (initial : Address → Option Dataset)
    (store : σ) (done : List ℕ) (step : Step) : Stage → Prop
  | .reading got rest => Fed j initial done step got rest
  | .writing data => j.graph.Denotes initial step.output.address data
  | .noting data => j.graph.Denotes initial step.output.address data ∧
      held store step.output.address = some data
  | .ended (.ok data) => j.graph.Denotes initial step.output.address data ∧
      (j.mustWrite step = true → held store step.output.address = some data)
  | .ended (.error _) => True

/-- Everything that a run has made is what it denotes. -/
structure Valued (j : Setup σ) (held : σ → Address → Option Dataset)
    (initial : Address → Option Dataset) (s : State σ) : Prop where
  sources : ∀ a, j.graph.producer? a = none → held s.store a = initial a
  working : ∀ p stage step, s.working.lookup p = some stage → j.step? p = some step →
    Worth j held initial s.store s.done step stage
  done : ∀ p ∈ s.done, ∀ step, j.step? p = some step → ∃ data,
    s.made.lookup step.output.address = some data ∧
      j.graph.Denotes initial step.output.address data ∧
      (j.mustWrite step = true → held s.store step.output.address = some data)
  made : ∀ a data, s.made.lookup a = some data → ∃ p ∈ s.done, ∃ step, j.step? p = some step ∧
    step.output.address = a
  completed : ∀ c ∈ s.completed, ∃ p ∈ s.done, ∃ step data, j.step? p = some step ∧
    c.step = step.id ∧ c.output = step.output.address ∧ s.made.lookup c.output = some data ∧
      c.rows = data.size

theorem valued_initial (j : Setup σ) (held : σ → Address → Option Dataset) (store : σ)
    (stopAsked : Bool) : Valued j held (held store) (.initial store stopAsked) := by
  constructor <;> simp [State.initial]

/-! ## Reading -/

theorem Settled.mono {done done' : List ℕ} (hsub : ∀ p ∈ done, p ∈ done') {a : Address}
    (h : Settled j done a) : Settled j done' a := by
  refine h.imp_right ?_
  rintro ⟨p, hp, hstep⟩
  exact ⟨p, hsub p hp, hstep⟩

theorem Fed.mono {done done' : List ℕ} (hsub : ∀ p ∈ done, p ∈ done') {step : Step} {got : Inputs}
    {rest : List (String × Source)} (h : Fed j initial done step got rest) :
    Fed j initial done' step got rest := by
  obtain ⟨taken, left, hinputs, hnames, hgot, hleft⟩ := h
  refine ⟨taken, left, hinputs, hnames, hgot, hleft.imp ?_⟩
  rintro i ⟨param, source⟩ ⟨hparam, hfeeds⟩
  cases source with
  | memory data => exact ⟨hparam, hfeeds⟩
  | storage b => exact ⟨hparam, hfeeds.1, hfeeds.2.mono hsub⟩

/-- What is settled in the storage is what it denotes. -/
theorem Valued.denotes_of_settled (h : Valued j held initial s) {a : Address}
    (ha : Settled j s.done a) {data : Dataset} (hdata : held s.store a = some data) :
    j.graph.Denotes initial a data := by
  rcases ha with hnone | ⟨p, hp, step, hstep, rfl, hwrite⟩
  · exact .source hnone (by rw [← h.sources a hnone, hdata])
  · obtain ⟨data', -, hdenotes, hheld⟩ := h.done p hp step hstep
    rw [hheld hwrite] at hdata
    rwa [← Option.some.inj hdata]

/-- An input is taken. -/
theorem Fed.take {done : List ℕ} {step : Step} {got : Inputs} {param : String} {source : Source}
    {rest : List (String × Source)} {data : Dataset}
    (h : Fed j initial done step got ((param, source) :: rest))
    (hdata : ∀ a, Feeds j initial done a source → j.graph.Denotes initial a.address data) :
    Fed j initial done step (got.insert param data) rest := by
  obtain ⟨taken, left, hinputs, hnames, hgot, hleft⟩ := h
  cases hleft with
  | @cons i r left rest hhead hleft =>
    obtain ⟨rfl, hfeeds⟩ := hhead
    refine ⟨taken ++ [i], left, by rw [hinputs, List.append_assoc, List.singleton_append], ?_,
      fun e he => ?_, hleft⟩
    · unfold Inputs.names Inputs.insert
      rw [map_fst_assign, show got.entries.map (·.1) = _ from hnames, List.map_append,
        List.map_singleton, List.eraseDups_append]
      by_cases hold : i.1 ∈ taken.map (·.1)
      · rw [if_pos (List.mem_eraseDups.2 hold)]
        simp [hold, List.removeAll]
      · rw [if_neg (mt List.mem_eraseDups.1 hold)]
        simp [hold, List.removeAll, List.eraseDups_cons]
    · rcases mem_assign he with rfl | he
      · exact ⟨i, by simp, rfl, hdata _ hfeeds⟩
      · obtain ⟨k, hk, hsame, hdenotes⟩ := hgot e he
        exact ⟨k, List.mem_append_left _ hk, hsame, hdenotes⟩

/-- **The plan of a step has good sources**, once the steps that it waits for are done. -/
theorem feeds_plan (hg : j.graph.Sound) (h : Valued j held initial s) {place : ℕ} {step : Step}
    (hstep : j.step? place = some step) (hawaits : ∀ q ∈ j.awaits step, q ∈ s.done) :
    List.Forall₂ (fun i r => r.1 = i.1 ∧ Feeds j initial s.done i.2 r.2) step.inputs
      (j.plan step s.made) := by
  refine forall₂_plan hg hstep hawaits (fun i _ hnone => ⟨rfl, j.address_handle i.2, .inl hnone⟩)
    fun i hi q hdone producer hq _ hout => ?_
  obtain ⟨data, hmade, hdenotes, -⟩ := h.done q hdone producer hq
  refine ⟨data, hmade, ?_⟩
  by_cases hkind : producer.kind = step.kind
  · rw [if_pos hkind]
    rw [hout] at hdenotes
    exact ⟨rfl, hdenotes⟩
  · -- the reader is of another kind, so the data has been written
    have hwrite : j.mustWrite producer = true :=
      mustWrite_of_readsFrom hg (List.mem_of_getElem? hstep) ⟨i, hi, hout.symm⟩ hkind
    rw [if_neg hkind]
    exact ⟨rfl, j.address_handle i.2, .inr ⟨q, hdone, producer, hq, hout, hwrite⟩⟩

/-! ## Moves of workers -/

/-- A worker changes what is held at the output of its step alone. -/
theorem Advance.held_other (hstore : j.store.Remembers held) {step : Step} {stage stage' : Stage}
    {rest : State σ} (h : Advance j step s stage stage' rest) {b : Address}
    (hb : b ≠ step.output.address) : held rest.store b = held s.store b := by
  rw [← j.address_handle step.output] at hb
  cases h with
  | stored hread => exact congrFun (hstore.read_held _ _ _ _ hread) b
  | missed hread => exact congrFun (hstore.read_held _ _ _ _ hread) b
  | wrote hwrite => exact hstore.write_other _ _ _ _ _ hwrite b hb
  | refused hwrite => exact hstore.write_other _ _ _ _ _ hwrite b hb
  | _ => rfl

/-- A worker moves on with what is worth as much. -/
theorem Advance.worth (hg : j.graph.Sound) (hbodies : j.CallsBodies)
    (hstore : j.store.Remembers held) (h : Valued j held initial s) {place : ℕ} {step : Step}
    {stage stage' : Stage} {rest : State σ} (hstep : j.step? place = some step)
    (hadvance : Advance j step s stage stage' rest)
    (hworth : Worth j held initial s.store s.done step stage) :
    Worth j held initial rest.store s.done step stage' := by
  cases hadvance with
  | memory => exact hworth.take fun a hfeeds => hfeeds
  | @stored got param b rest data store hread =>
    refine hworth.take fun a hfeeds => ?_
    obtain ⟨haddress, hsettled⟩ := hfeeds
    exact h.denotes_of_settled hsettled (haddress ▸ hstore.read_ok _ _ _ _ hread)
  | missed _ => trivial
  | @computed got data log stopAsked _ hresult =>
    obtain ⟨taken, left, hinputs, hnames, hgot, hleft⟩ := hworth
    obtain rfl := List.forall₂_nil_right_iff.1 hleft
    rw [List.append_nil] at hinputs
    have hmem : step ∈ j.graph.steps := List.mem_of_getElem? hstep
    rw [← hinputs, (hg.bound step hmem).params] at hnames
    rw [← hinputs] at hgot
    rw [hbodies.result] at hresult
    have hdenotes := Graph.Denotes.of_inputs hg hmem hnames hgot hresult
    split
    · exact hdenotes
    · rename_i hwrite
      exact ⟨hdenotes, fun hmust => absurd hmust hwrite⟩
  | aborted _ _ _ _ => trivial
  | wrote hwrite =>
    refine ⟨hworth, ?_⟩
    rw [← j.address_handle step.output]
    exact hstore.write_ok _ _ _ _ hwrite
  | refused _ => trivial
  | noted => exact ⟨hworth.1, fun _ => hworth.2⟩

/-- What the data of a step is worth depends on what is held at its output alone. -/
theorem Worth.congr {store store' : σ} {done : List ℕ} {step : Step} {stage : Stage}
    (hheld : held store' step.output.address = held store step.output.address)
    (h : Worth j held initial store done step stage) : Worth j held initial store' done step stage := by
  cases stage with
  | reading got rest => exact h
  | writing data => exact h
  | noting data => exact ⟨h.1, hheld.trans h.2⟩
  | ended result =>
    cases result with
    | ok data => exact ⟨h.1, fun hwrite => hheld.trans (h.2 hwrite)⟩
    | error fault => trivial

theorem Worth.mono {store : σ} {done done' : List ℕ} (hsub : ∀ p ∈ done, p ∈ done') {step : Step}
    {stage : Stage} (h : Worth j held initial store done step stage) :
    Worth j held initial store done' step stage := by
  cases stage with
  | reading got rest => exact Fed.mono hsub h
  | writing data => exact h
  | noting data => exact h
  | ended result =>
    cases result with
    | ok data => exact h
    | error fault => trivial

section

variable (hg : j.graph.Sound)

include hg

theorem Valued.work (hbodies : j.CallsBodies) (hstore : j.store.Remembers held)
    (h : Valued j held initial s) (hs : Scheduled j s) {place : ℕ} {step : Step}
    {stage stage' : Stage} {rest : State σ} (hstep : j.step? place = some step)
    (hstage : s.working.lookup place = some stage) (hadvance : Advance j step s stage stage' rest) :
    Valued j held initial (rest.moveTo place stage') := by
  have hkeeps := hadvance.keeps (mem_busy_of_lookup hstage)
  have hother : ∀ p other, p ≠ place → j.step? p = some other →
      held (rest.moveTo place stage').store other.output.address =
        held s.store other.output.address :=
    fun p other hne hp => hadvance.held_other hstore (output_ne_of_place_ne hg hp hstep hne)
  constructor
  case sources =>
    intro a hnone
    have hne : a ≠ step.output.address := by
      rintro rfl
      rw [hg.producer?_output (List.mem_of_getElem? hstep)] at hnone
      exact absurd hnone (by simp)
    exact (hadvance.held_other hstore hne).trans (h.sources a hnone)
  case working =>
    intro p found other hfound hp
    rw [hkeeps.done]
    rcases hadvance.of_lookup hstep hp hfound with ⟨rfl, rfl, rfl⟩ | ⟨hne, hfound⟩
    · show Worth j held initial rest.store s.done other found
      exact hadvance.worth hg hbodies hstore h hstep (h.working p stage other hstage hstep)
    · exact (h.working p found other hfound hp).congr (hother p other hne hp)
  case done =>
    intro p hp other hp'
    rw [hkeeps.done] at hp
    have hne : p ≠ place := fun heq => hs.apart place (mem_busy_of_lookup hstage) (heq ▸ hp)
    obtain ⟨data, hmade, hdenotes, hheld⟩ := h.done p hp other hp'
    exact ⟨data, by rwa [hkeeps.made], hdenotes, fun hwrite =>
      (hother p other hne hp').trans (hheld hwrite)⟩
  case made => rw [hkeeps.made, hkeeps.done]; exact h.made
  case completed => rw [hkeeps.completed, hkeeps.made, hkeeps.done]; exact h.completed

theorem Valued.start (h : Valued j held initial s) (hs : Scheduled j s) {place : ℕ} {step : Step}
    (hready : j.nextReady? s = some place) (hstep : j.step? place = some step) :
    Valued j held initial (j.start s place step) := by
  obtain ⟨hfresh, hawaits⟩ := ready_of_nextReady? hready hstep
  refine ⟨h.sources, fun p stage other hstage hp => ?_, h.done, h.made, h.completed⟩
  rcases hs.of_lookup_start hready hstep hp hstage with ⟨rfl, rfl, rfl⟩ | ⟨-, hstage⟩
  · exact ⟨[], other.inputs, rfl, rfl, fun e he => absurd he List.not_mem_nil,
      feeds_plan hg h hstep hawaits⟩
  · exact h.working p stage other hstage hp

theorem Valued.finish (h : Valued j held initial s) (hs : Scheduled j s) {place : ℕ} {step : Step}
    {data : Dataset} (hstep : j.step? place = some step)
    (hstage : s.working.lookup place = some (.ended (.ok data))) :
    Valued j held initial (j.finish { s with phase := .filling, working := unassign place s.working }
      place step data) := by
  obtain ⟨hdenotes, hheld⟩ := h.working place _ step hstage hstep
  have hmore : ∀ p ∈ s.done, p ∈ s.done ++ [place] := fun p hp => List.mem_append_left _ hp
  have hmade : ∀ p ∈ s.done, ∀ other, j.step? p = some other →
      (assign step.output.address data s.made).lookup other.output.address =
        s.made.lookup other.output.address := by
    intro p hp other hother
    have hne : p ≠ place := fun heq => hs.apart place (mem_busy_of_lookup hstage) (heq ▸ hp)
    exact lookup_assign_of_ne data (output_ne_of_place_ne hg hother hstep hne) s.made
  constructor
  case sources => exact h.sources
  case working =>
    intro p stage other hlookup hp
    obtain ⟨-, hlookup⟩ := lookup_unassign_eq_some_iff.1 hlookup
    exact (h.working p stage other hlookup hp).mono hmore
  case done =>
    intro p hp other hother
    by_cases hne : p = place
    · subst hne
      rw [hstep] at hother
      obtain rfl := Option.some.inj hother
      exact ⟨data, lookup_assign_self _ _ _, hdenotes, hheld⟩
    · have hp : p ∈ s.done := (List.mem_append.1 hp).resolve_right (by simpa using hne)
      obtain ⟨data', hlookup, hrest⟩ := h.done p hp other hother
      exact ⟨data', (hmade p hp other hother).trans hlookup, hrest⟩
  case made =>
    intro a data' hlookup
    have hlookup := (lookup_assign _ a data s.made).symm.trans hlookup
    by_cases ha : a = step.output.address
    · exact ⟨place, by simp [Setup.finish], step, hstep, ha.symm⟩
    · rw [if_neg ha] at hlookup
      obtain ⟨p, hp, hrest⟩ := h.made a data' hlookup
      exact ⟨p, hmore p hp, hrest⟩
  case completed =>
    intro c hc
    rcases List.mem_append.1 hc with hc | hc
    · obtain ⟨p, hp, other, data', hother, hid, hout, hlookup, hrows⟩ := h.completed c hc
      refine ⟨p, hmore p hp, other, data', hother, hid, hout, ?_, hrows⟩
      rw [hout] at hlookup ⊢
      exact (hmade p hp other hother).trans hlookup
    · rw [List.mem_singleton.1 hc]
      exact ⟨place, by simp [Setup.finish], step, data, hstep, rfl, rfl, lookup_assign_self _ _ _, rfl⟩

omit hg in
theorem Valued.fail (h : Valued j held initial s) {place : ℕ} {step : Step} {fault : Fault} :
    Valued j held initial
      (Setup.fail { s with phase := .filling, working := unassign place s.working } place step fault) := by
  obtain ⟨failure, -, heq⟩ := failure_fail
    { s with phase := .filling, working := unassign place s.working } place step fault
  rw [heq]
  refine ⟨h.sources, fun p stage other hlookup hp => ?_, h.done, h.made, h.completed⟩
  obtain ⟨-, hlookup⟩ := lookup_unassign_eq_some_iff.1 hlookup
  exact h.working p stage other hlookup hp

/-- **Every move keeps what has been made worth what it denotes.** -/
theorem Valued.move {c : Choice} (hbodies : j.CallsBodies) (hstore : j.store.Remembers held)
    (h : Valued j held initial s) (hs : Scheduled j s) (hmove : Move j s c t) :
    Valued j held initial t := by
  cases hmove with
  | ask => exact ⟨h.sources, h.working, h.done, h.made, h.completed⟩
  | wait _ _ _ _ => exact ⟨h.sources, h.working, h.done, h.made, h.completed⟩
  | start _ _ _ _ hready hstep => exact h.start hg hs hready hstep
  | close _ _ => exact ⟨h.sources, h.working, h.done, h.made, h.completed⟩
  | work hstep hstage hadvance => exact h.work hg hbodies hstore hs hstep hstage hadvance
  | finish _ hstep hstage => exact h.finish hg hs hstep hstage
  | fail _ _ _ => exact h.fail

theorem valued_of_reaches (hbodies : j.CallsBodies) (hstore : j.store.Remembers held) {store : σ}
    {stopAsked : Bool} (h : j.Reaches (.initial store stopAsked) s) :
    Valued j held (held store) s := by
  have hall : Scheduled j s ∧ Valued j held (held store) s := by
    refine h.invariant (P := fun s => Scheduled j s ∧ Valued j held (held store) s) ?_
      ⟨scheduled_initial j store stopAsked, valued_initial j held store stopAsked⟩
    rintro s c t ⟨hs, hvalued⟩ hmove
    exact ⟨hs.move hmove, hvalued.move hg hbodies hstore hs hmove⟩
  exact hall.2

end

end Provenance.Run
