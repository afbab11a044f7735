import Provenance.Catalog
import Provenance.Proofs.Join

/-!
# Sound catalogs

Handles with one declaration are handles to one address, and a step that is declared into a handle
writes to the address of the handle.  A catalog does not store the addresses of its declarations, so
`home` stands for them here.

* `Knows`: a handle fits the catalog.
* `Sound`: the steps and the last steps of the declarations fit it.
* `address_of_producer?`: **the producer of a handle writes to the address of the handle.**
* `producer?_eq_none_iff`: which handles name no step.

Declaring keeps all this, and takes nothing that was known away (`Grows`).
-/

namespace Provenance.Catalog

/-- A handle fits a catalog whose declarations are of the addresses `home`. -/
structure Knows (home : ℕ → Address) (c : Catalog) (a : Asset) : Prop where
  declared : a.declaration < c.declarations
  address : a.address = home a.declaration
  lineage : ∀ id, a.lineage = some id →
    ∃ s, c.step? id = some s ∧ s.output.declaration = a.declaration

/-- The steps of a catalog fit it, and the last step of a declaration was declared into it. -/
structure Sound (home : ℕ → Address) (c : Catalog) : Prop where
  numbered : ∀ s ∈ c.steps, s.id ≤ c.steps.length
  output : ∀ s ∈ c.steps, c.Knows home s.output
  inputs : ∀ s ∈ c.steps, ∀ i ∈ s.inputs, c.Knows home i.2
  bound : ∀ s ∈ c.steps, Bound s.task s.inputs
  latest : ∀ e ∈ c.latest, ∃ s, c.step? e.2 = some s ∧ s.output.declaration = e.1

variable {home : ℕ → Address} {c : Catalog} {a : Asset} {s : Step}

theorem id_of_step? {id : StepId} (h : c.step? id = some s) : s.id = id := by
  simpa using List.find?_some h

theorem mem_of_step? {id : StepId} (h : c.step? id = some s) : s ∈ c.steps :=
  List.mem_of_find?_eq_some h

/-- A producer is found under its own number. -/
theorem step?_of_producer? {alive : List StepId} (h : c.producer? alive a = some s) :
    c.step? s.id = some s := by
  obtain ⟨id, -, hid⟩ := Option.bind_eq_some_iff.1 h
  rwa [id_of_step? hid]

/-- The producer of a handle was declared into the declaration of the handle. -/
theorem Sound.declaration_of_producer? (hc : c.Sound home) (ha : c.Knows home a)
    {alive : List StepId} (h : c.producer? alive a = some s) :
    s.output.declaration = a.declaration := by
  obtain ⟨id, hid, hs⟩ := Option.bind_eq_some_iff.1 h
  rcases Option.or_eq_some_iff.1 hid with hlast | ⟨-, hlineage⟩
  · obtain ⟨hlookup, -⟩ := Option.filter_eq_some_iff.1 hlast
    obtain ⟨t, ht, hdecl⟩ := hc.latest _ (mem_of_lookup hlookup)
    rw [hs] at ht
    rwa [Option.some.inj ht]
  · obtain ⟨t, ht, hdecl⟩ := ha.lineage id hlineage
    rw [hs] at ht
    rwa [Option.some.inj ht]

/-- **The producer of a handle writes to the address of the handle.** -/
theorem Sound.address_of_producer? (hc : c.Sound home) (ha : c.Knows home a)
    {alive : List StepId} (h : c.producer? alive a = some s) : s.output.address = a.address := by
  rw [(hc.output s (mem_of_producer? h)).address, ha.address, hc.declaration_of_producer? ha h]

/-- **A handle names no step exactly if it has no lineage and the last step of its declaration is dead.** -/
theorem Sound.producer?_eq_none_iff (hc : c.Sound home) (ha : c.Knows home a) {alive : List StepId} :
    c.producer? alive a = none ↔
      a.lineage = none ∧ ∀ id, c.latest.lookup a.declaration = some id → id ∉ alive := by
  have hfilter : (∀ id, c.latest.lookup a.declaration = some id → id ∉ alive) →
      (c.latest.lookup a.declaration).filter (· ∈ alive) = none := fun hdead =>
    Option.filter_eq_none_iff.2 fun id hid => by simpa using hdead id hid
  unfold producer?
  constructor
  · intro hnone
    have hdead : ∀ id, c.latest.lookup a.declaration = some id → id ∉ alive := by
      intro id hid halive
      obtain ⟨l, hl, -⟩ := hc.latest _ (mem_of_lookup hid)
      rw [hid, Option.filter_some, if_pos (decide_eq_true halive), Option.some_or, Option.bind_some,
        hl] at hnone
      exact absurd hnone (by simp)
    refine ⟨?_, hdead⟩
    cases hlineage : a.lineage with
    | none => rfl
    | some id =>
      obtain ⟨l, hl, -⟩ := ha.lineage id hlineage
      rw [hfilter hdead, Option.none_or, hlineage, Option.bind_some, hl] at hnone
      exact absurd hnone (by simp)
  · rintro ⟨hlineage, hdead⟩
    rw [hfilter hdead, hlineage]
    rfl

/-! ## Handles made from handles -/

theorem Knows.relabel (h : c.Knows home a) (title description : String) :
    c.Knows home (a.relabel title description) := ⟨h.declared, h.address, h.lineage⟩

theorem Knows.store (h : c.Knows home a) (spec : StorageSpec) : c.Knows home (a.store spec) :=
  ⟨h.declared, h.address, h.lineage⟩

theorem Knows.bare (h : c.Knows home a) : c.Knows home a.bare :=
  ⟨h.declared, h.address, fun _ hid => absurd hid (by simp [Asset.bare])⟩

/-! ## Declaring -/

/-- What one catalog knows, a later one knows too. -/
structure Grows (c c' : Catalog) : Prop where
  declarations : c.declarations ≤ c'.declarations
  step : ∀ id s, c.step? id = some s → c'.step? id = some s

/-- A handle stays known while the catalog grows and the declarations keep their addresses. -/
theorem Knows.mono {home' : ℕ → Address} {c' : Catalog} (h : c.Knows home a) (hgrows : Grows c c')
    (hhome : ∀ d < c.declarations, home' d = home d) : c'.Knows home' a where
  declared := Nat.lt_of_lt_of_le h.declared hgrows.declarations
  address := by rw [h.address, hhome _ h.declared]
  lineage id hid := by
    obtain ⟨s, hs, hdecl⟩ := h.lineage id hid
    exact ⟨s, hgrows.step id s hs, hdecl⟩

theorem grows_declare (c : Catalog) (name location : String) :
    Grows c (c.declare name location).2 := ⟨Nat.le_succ _, fun _ _ h => h⟩

theorem Sound.declare (hc : c.Sound home) (name location : String) :
    ∃ home', (∀ d < c.declarations, home' d = home d) ∧
      (c.declare name location).2.Sound home' ∧
      (c.declare name location).2.Knows home' (c.declare name location).1 := by
  let home' : ℕ → Address := fun d => if d = c.declarations then ⟨name, location⟩ else home d
  have hhome : ∀ d < c.declarations, home' d = home d := fun d hd => if_neg (Nat.ne_of_lt hd)
  have hgrows := grows_declare c name location
  refine ⟨home', hhome, ⟨hc.numbered, fun s hs => (hc.output s hs).mono hgrows hhome,
    fun s hs i hi => (hc.inputs s hs i hi).mono hgrows hhome, hc.bound, hc.latest⟩, ?_⟩
  exact ⟨Nat.lt_succ_self _, (if_pos rfl).symm, fun _ hid => absurd hid (by simp [Catalog.declare])⟩

theorem Sound.step?_bind_self (d : Draft) (target : Asset) (replaces : Bool) :
    (c.bind d target replaces).2.step? (c.steps.length + 1) =
      some ⟨c.steps.length + 1, d.task, d.inputs, target.bare, replaces⟩ := by
  unfold Catalog.step? Catalog.bind
  exact List.find?_cons_of_pos (by simp)

theorem Sound.grows_bind (hc : c.Sound home) (d : Draft) (target : Asset) (replaces : Bool) :
    Grows c (c.bind d target replaces).2 := by
  refine ⟨Nat.le_refl _, fun id s hs => ?_⟩
  have hid : c.steps.length + 1 ≠ id := by
    have hle := hc.numbered s (mem_of_step? hs)
    rw [id_of_step? hs] at hle
    exact Nat.ne_of_gt (Nat.lt_succ_of_le hle)
  unfold Catalog.step? Catalog.bind
  rw [List.find?_cons_of_neg (by simpa using hid)]
  exact hs

theorem Sound.bind (hc : c.Sound home) {d : Draft} {target : Asset} (replaces : Bool)
    (hbound : Bound d.task d.inputs) (hinputs : ∀ i ∈ d.inputs, c.Knows home i.2)
    (htarget : c.Knows home target) :
    (c.bind d target replaces).2.Sound home ∧
      (c.bind d target replaces).2.Knows home (c.bind d target replaces).1 := by
  have hgrows := hc.grows_bind d target replaces
  have hmono : ∀ {a : Asset}, c.Knows home a → (c.bind d target replaces).2.Knows home a :=
    fun ha => ha.mono hgrows fun _ _ => rfl
  have hself : (c.bind d target replaces).2.step? (c.steps.length + 1) =
      some ⟨c.steps.length + 1, d.task, d.inputs, target.bare, replaces⟩ :=
    Sound.step?_bind_self d target replaces
  refine ⟨⟨?_, ?_, ?_, ?_, ?_⟩, ⟨htarget.declared, htarget.address, fun id hid => ?_⟩⟩
  · exact List.forall_mem_cons.2 ⟨Nat.le_refl _, fun s hs => Nat.le_succ_of_le (hc.numbered s hs)⟩
  · exact List.forall_mem_cons.2 ⟨hmono htarget.bare, fun s hs => hmono (hc.output s hs)⟩
  · exact List.forall_mem_cons.2 ⟨fun i hi => hmono (hinputs i hi),
      fun s hs i hi => hmono (hc.inputs s hs i hi)⟩
  · exact List.forall_mem_cons.2 ⟨hbound, hc.bound⟩
  · refine List.forall_mem_cons.2 ⟨⟨_, hself, rfl⟩, fun e he => ?_⟩
    obtain ⟨s, hs, hdecl⟩ := hc.latest e he
    exact ⟨s, hgrows.step _ _ hs, hdecl⟩
  · obtain rfl : c.steps.length + 1 = id := Option.some.inj hid
    exact ⟨_, hself, rfl⟩

theorem sound_empty (home : ℕ → Address) : Catalog.empty.Sound home := by
  constructor <;> simp [Catalog.empty]

end Provenance.Catalog
