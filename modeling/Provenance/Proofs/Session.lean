import Mathlib
import Provenance.Proofs.Graph.Build
import Provenance.Session

/-!
# What a client can reach

A client works with values: those that stand under names, and those that it makes from them (`Offers`).
Its moves are to declare, to end drafts, and to keep values under names and drop them (`Reachable`).

In every session that a client can reach the catalog is sound, and so is every value that the client can
get hold of (`Reachable.sound`, `Offers.known`).  So whatever terminals it offers, `Graph.build_ok` and
what follows from it apply.
-/

namespace Provenance

universe u

variable {α : Type u}

/-- A value fits a catalog whose declarations are of the addresses `home`. -/
def Item.Known (home : ℕ → Address) (c : Catalog) : Item α → Prop
  | .asset a => c.Knows home a
  | .join j => ∀ i ∈ j.sources, c.Knows home i.2
  | .draft d => Bound d.task d.inputs ∧ ∀ i ∈ d.inputs, c.Knows home i.2
  | .graph g => (∀ x ∈ g.assets, c.Knows home x) ∧ ∀ s ∈ g.steps, c.step? s.id = some s
  | .task _ | .other _ => True

/-- A value stays known while the catalog grows and the declarations keep their addresses. -/
theorem Item.Known.mono {home home' : ℕ → Address} {c c' : Catalog} {item : Item α}
    (h : item.Known home c) (hgrows : Catalog.Grows c c')
    (hhome : ∀ d < c.declarations, home' d = home d) : item.Known home' c' := by
  cases item with
  | asset a => exact Catalog.Knows.mono h hgrows hhome
  | join j => exact fun i hi => (h i hi).mono hgrows hhome
  | draft d => exact ⟨h.1, fun i hi => (h.2 i hi).mono hgrows hhome⟩
  | graph g => exact ⟨fun x hx => (h.1 x hx).mono hgrows hhome,
      fun s hs => hgrows.step _ _ (h.2 s hs)⟩
  | task t => trivial
  | other x => trivial

namespace Session

/-- What a client can get hold of in a session. -/
inductive Offers (s : Session α) : Item α → Prop
  | held {name : String} {item : Item α} : (name, item) ∈ s.held → Offers s item
  | task (t : Task) : Offers s (.task t)
  | other (x : α) : Offers s (.other x)
  | relabel {a : Asset} (title description : String) :
      Offers s (.asset a) → Offers s (.asset (a.relabel title description))
  | store {a : Asset} (spec : StorageSpec) : Offers s (.asset a) → Offers s (.asset (a.store spec))
  | input {a : Asset} {t : Step} {i : String × Asset} :
      Offers s (.asset a) → s.step? a = some t → i ∈ t.inputs → Offers s (.asset i.2)
  | output {a : Asset} {t : Step} :
      Offers s (.asset a) → s.step? a = some t → Offers s (.asset t.output)
  | single {a : Asset} {t : Task} {d : Draft} :
      Offers s (.asset a) → a.transform t = .ok d → Offers s (.draft d)
  | join {sources : List (String × Asset)} {j : Join} :
      (∀ i ∈ sources, Offers s (.asset i.2)) → Join.ofSources sources = .ok j → Offers s (.join j)
  | joined {j : Join} {t : Task} {d : Draft} :
      Offers s (.join j) → j.transform t = .ok d → Offers s (.draft d)
  | graph {terminals : List Asset} {g : Graph} :
      (∀ a ∈ terminals, Offers s (.asset a)) → s.graph terminals = .ok g → Offers s (.graph g)
  | graphAsset {g : Graph} {a : Asset} :
      Offers s (.graph g) → a ∈ g.assets → Offers s (.asset a)
  | graphInput {g : Graph} {t : Step} {i : String × Asset} :
      Offers s (.graph g) → t ∈ g.steps → i ∈ t.inputs → Offers s (.asset i.2)
  | graphOutput {g : Graph} {t : Step} :
      Offers s (.graph g) → t ∈ g.steps → Offers s (.asset t.output)

/-- The sessions that a client can reach.  What a move gives is kept under a name; to throw it away is
to drop that name. -/
inductive Reachable : Session α → Prop
  | start : Reachable start
  | declare {s : Session α} (name location key : String) : Reachable s →
      Reachable ((s.declare name location).2.keep key (.asset (s.declare name location).1))
  | put {s s' : Session α} {d : Draft} {target a : Asset} (key : String) : Reachable s →
      s.Offers (.draft d) → s.Offers (.asset target) → s.put d target = .ok (a, s') →
      Reachable (s'.keep key (.asset a))
  | replace {s : Session α} {d : Draft} {target : Asset} (key : String) : Reachable s →
      s.Offers (.draft d) → s.Offers (.asset target) →
      Reachable ((s.replace d target).2.keep key (.asset (s.replace d target).1))
  | keep {s : Session α} {item : Item α} (key : String) : Reachable s → s.Offers item →
      Reachable (s.keep key item)
  | drop {s : Session α} (key : String) : Reachable s → Reachable (s.drop key)

/-- The catalog is sound, and the values that are held fit it. -/
structure Sound (home : ℕ → Address) (s : Session α) : Prop where
  catalog : s.catalog.Sound home
  held : ∀ e ∈ s.held, e.2.Known home s.catalog

section

variable {home : ℕ → Address} {s : Session α}

/-- What stands under a name can be got hold of. -/
theorem Offers.of_item? (name : String) {item : Item α} (h : s.item? name = some item) :
    s.Offers item := .held (mem_of_lookup h)

theorem joinSources {sources : List (String × Asset)} {j : Join}
    (h : Join.ofSources sources = .ok j) : j.sources = sources := by
  unfold Join.ofSources at h
  split at h
  · exact absurd h (by simp)
  · split at h
    · rw [← Except.ok.inj h]
    · exact absurd h (by simp)

/-- **Whatever a client can get hold of fits the catalog.** -/
theorem Offers.known (hs : s.Sound home) {item : Item α} (h : s.Offers item) :
    item.Known home s.catalog := by
  induction h with
  | held hmem => exact hs.held _ hmem
  | task t => trivial
  | other x => trivial
  | relabel title description _ ih => exact Catalog.Knows.relabel ih title description
  | store spec _ ih => exact Catalog.Knows.store ih spec
  | input _ hstep hi _ =>
    obtain ⟨id, -, hid⟩ := Option.bind_eq_some_iff.1 hstep
    exact hs.catalog.inputs _ (Catalog.mem_of_step? hid) _ hi
  | output _ hstep _ =>
    obtain ⟨id, -, hid⟩ := Option.bind_eq_some_iff.1 hstep
    exact hs.catalog.output _ (Catalog.mem_of_step? hid)
  | single _ hd ih =>
    obtain ⟨hbound, hinputs⟩ := bound_of_transform hd
    exact ⟨hbound, fun i hi => hinputs i hi ▸ ih⟩
  | join _ hj ih =>
    intro i hi
    rw [joinSources hj] at hi
    exact ih i hi
  | joined _ hd ih =>
    obtain ⟨hbound, hinputs⟩ := Join.bound_of_transform hd
    exact ⟨hbound, fun i hi => ih i (hinputs i hi)⟩
  | graph _ hg ih => exact Graph.known_of_ofTerminals hs.catalog ih hg
  | graphAsset _ ha ih => exact ih.1 _ ha
  | graphInput _ ht hi ih => exact hs.catalog.inputs _ (Catalog.mem_of_step? (ih.2 _ ht)) _ hi
  | graphOutput _ ht ih => exact hs.catalog.output _ (Catalog.mem_of_step? (ih.2 _ ht))

theorem Sound.keep (hs : s.Sound home) (key : String) (item : Item α)
    (h : item.Known home s.catalog) : (s.keep key item).Sound home := by
  refine ⟨hs.catalog, fun e he => ?_⟩
  rcases mem_assign he with rfl | he
  · exact h
  · exact hs.held e he

/-- A draft that ends well is bound to its target. -/
theorem put_eq_ok {s' : Session α} {d : Draft} {target a : Asset}
    (h : s.put d target = .ok (a, s')) :
    a = (s.catalog.bind d target false).1 ∧
      s' = { s with catalog := (s.catalog.bind d target false).2 } := by
  unfold put Catalog.put at h
  split at h
  · exact absurd h (by simp [Except.map])
  · obtain ⟨ha, hs⟩ := Prod.mk.inj (Except.ok.inj h)
    exact ⟨ha.symm, hs.symm⟩

theorem Sound.bind (hs : s.Sound home) {d : Draft} {target : Asset}
    (hd : (Item.draft d : Item α).Known home s.catalog)
    (htarget : (Item.asset target : Item α).Known home s.catalog) (replaces : Bool) :
    { s with catalog := (s.catalog.bind d target replaces).2 }.Sound home ∧
      (s.catalog.bind d target replaces).2.Knows home (s.catalog.bind d target replaces).1 := by
  obtain ⟨hcatalog, ha⟩ := hs.catalog.bind replaces hd.1 hd.2 htarget
  have hgrows := hs.catalog.grows_bind d target replaces
  exact ⟨⟨hcatalog, fun e he => (hs.held e he).mono hgrows fun _ _ => rfl⟩, ha⟩

/-- **In every session that a client can reach, the catalog is sound.** -/
theorem Reachable.sound (h : s.Reachable) : ∃ home, s.Sound home := by
  induction h with
  | start => exact ⟨fun _ => default, Catalog.sound_empty _, fun e he => absurd he List.not_mem_nil⟩
  | @declare s name location key _ ih =>
    obtain ⟨home, hs⟩ := ih
    obtain ⟨home', hhome, hcatalog, ha⟩ := hs.catalog.declare name location
    have hgrows := Catalog.grows_declare s.catalog name location
    have hdeclared : (s.declare name location).2.Sound home' :=
      ⟨hcatalog, fun e he => (hs.held e he).mono hgrows hhome⟩
    exact ⟨home', hdeclared.keep key (.asset _) ha⟩
  | @put s s' d target a key _ hd htarget hput ih =>
    obtain ⟨home, hs⟩ := ih
    obtain ⟨rfl, rfl⟩ := put_eq_ok hput
    obtain ⟨hbound, ha⟩ := hs.bind (hd.known hs) (htarget.known hs) false
    exact ⟨home, hbound.keep key (.asset _) ha⟩
  | @replace s d target key _ hd htarget ih =>
    obtain ⟨home, hs⟩ := ih
    obtain ⟨hbound, ha⟩ := hs.bind (hd.known hs) (htarget.known hs) true
    exact ⟨home, hbound.keep key (.asset _) ha⟩
  | keep key _ hitem ih =>
    obtain ⟨home, hs⟩ := ih
    exact ⟨home, hs.keep key _ (hitem.known hs)⟩
  | drop key _ ih =>
    obtain ⟨home, hs⟩ := ih
    exact ⟨home, hs.catalog, fun e he => hs.held e (List.mem_of_mem_filter he)⟩

/-- The catalog knows the terminals that a client offers. -/
theorem Reachable.exists_knows (h : s.Reachable) {terminals : List Asset}
    (hterminals : ∀ a ∈ terminals, s.Offers (.asset a)) :
    ∃ home, s.Sound home ∧ ∀ t ∈ terminals, s.catalog.Knows home t := by
  obtain ⟨home, hs⟩ := h.sound
  exact ⟨home, hs, fun t ht => (hterminals t ht).known hs⟩

end

/-! ## A session whose older step reads from the newer one -/

/-- A session after some steps, with handles under names. -/
def ofSteps (declarations : ℕ) (steps : List Step) (handles : List (String × Asset)) : Session Unit where
  catalog := ⟨steps, steps.map fun s => (s.output.declaration, s.id), declarations⟩
  held := handles.map fun e => (e.1, .asset e.2)

namespace Late

/-- A task of one parameter. -/
def copy : Task := .plain "copy" ["x"] fun _ => ⟨.ok .empty, false, []⟩

/-- A task that may run for half a billion years before anyone is told. -/
def lasting : Task := { copy with monitoring := some ⟨false, some 18446744073709552, []⟩ }

/-- The data that comes from outside. -/
def raw : Asset := ⟨⟨"raw", "lake"⟩, none, none, none, 0⟩

/-- What the newer step writes. -/
def clean : Asset := ⟨⟨"clean", "lake"⟩, none, none, none, 1⟩

/-- What the older step writes. -/
def report : Asset := ⟨⟨"report", "lake"⟩, none, none, none, 2⟩

/-- The older step. -/
def older (t : Task) : Step := ⟨1, t, [("x", clean)], report, true⟩

/-- The newer step. -/
def newer (t : Task) : Step := ⟨2, t, [("x", raw)], clean, true⟩

/-- The session after both steps. -/
def session (t : Task) : Session Unit where
  catalog := ⟨[newer t, older t], [(1, 2), (2, 1)], 3⟩
  held := [("raw", .asset raw), ("clean", .asset (clean.producedBy 2)),
    ("report", .asset (report.producedBy 1))]

/-- A client can reach the session, with any task of one parameter. -/
theorem reachable {t : Task} (ht : t.params = ["x"]) : (session t).Reachable := by
  have hdeclared : Reachable (⟨⟨[], [], 3⟩, [("raw", .asset raw), ("clean", .asset clean),
      ("report", .asset report)]⟩ : Session Unit) :=
    .declare "report" "lake" "report" (.declare "clean" "lake" "clean"
      (.declare "raw" "lake" "raw" .start))
  have hdraft : ∀ a : Asset, a.transform t = .ok ⟨t, [("x", a)]⟩ := fun a => transform_of_params ht
  have holder : Reachable (⟨⟨[older t], [(2, 1)], 3⟩, [("raw", .asset raw), ("clean", .asset clean),
      ("report", .asset (report.producedBy 1))]⟩ : Session Unit) :=
    .replace "report" hdeclared (.single (.of_item? "clean" rfl) (hdraft clean))
      (.of_item? "report" rfl)
  exact .replace "clean" holder (.single (.of_item? "raw" rfl) (hdraft raw)) (.of_item? "clean" rfl)

theorem offers (t : Task) : ∀ a ∈ [report.producedBy 1], (session t).Offers (.asset a) := by
  intro a ha
  obtain rfl := List.mem_singleton.1 ha
  exact .of_item? "report" rfl

/-- The graph behind the report: the newer step comes first. -/
def graph (t : Task) : Graph :=
  ⟨[report.address], [raw, clean, report], [newer t, older t], (newer t).links ++ (older t).links⟩

theorem graph_eq (t : Task) : (session t).graph [report.producedBy 1] = .ok (graph t) := by
  cbv

end Late

end Session

end Provenance
