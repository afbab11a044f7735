import Provenance.Graph.Basic

/-! # Sessions

A session keeps values under names, and a catalog of what was declared so far. The names decide which
steps are alive: a step is in use while something that stands under a name leads back to it. Putting a
value under a name drops what stood there before. -/

namespace Provenance

universe u

/-- What can stand under a name. Things of other kinds keep no step alive. -/
inductive Item (α : Type u) where
  | asset (value : Asset)
  | task (value : Task)
  | join (value : Join)
  | draft (value : Draft)
  | graph (value : Graph)
  | other (value : α)

/-- The steps that a value leads to. -/
def Item.roots {α : Type u} : Item α → List StepId
  | asset a => a.lineage.toList
  | join j => j.roots
  | draft d => d.roots
  | graph g => g.roots
  | task _ | other _ => []

/-- Values under names, and the catalog of all steps. -/
structure Session (α : Type u) where
  catalog : Catalog
  held : List (String × Item α)

namespace Session

variable {α : Type u}

/-- The session at its start. -/
def start : Session α := ⟨.empty, []⟩

/-- The value under a name. -/
def item? (s : Session α) (name : String) : Option (Item α) := s.held.lookup name

/-- Puts a value under a name. -/
def keep (s : Session α) (name : String) (item : Item α) : Session α :=
  { s with held := assign name item s.held }

/-- Takes the value under a name away. -/
def drop (s : Session α) (name : String) : Session α := { s with held := unassign name s.held }

/-- The steps that the values under names lead to. -/
def roots (s : Session α) : List StepId := s.held.flatMap (·.2.roots)

/-- The steps in use, while `extra` steps are in use as well. -/
def alive (s : Session α) (extra : List StepId) : List StepId := s.catalog.alive (extra ++ s.roots)

/-- Declares an asset. -/
def declare (s : Session α) (name location : String) : Asset × Session α :=
  let (a, catalog) := s.catalog.declare name location
  (a, { s with catalog })

/-- Ends a draft: its data goes into an asset that has no producer. -/
def put (s : Session α) (d : Draft) (target : Asset) : Except Fault (Asset × Session α) :=
  (s.catalog.put (s.alive (d.roots ++ target.lineage.toList)) d target).map
    fun (a, catalog) => (a, { s with catalog })

/-- Ends a draft: its data goes into an asset, whatever produced it before. -/
def replace (s : Session α) (d : Draft) (target : Asset) : Asset × Session α :=
  let (a, catalog) := s.catalog.replace d target
  (a, { s with catalog })

/-- Builds the graph behind terminals. -/
def graph (s : Session α) (terminals : List Asset) : Except Fault Graph :=
  Graph.ofTerminals s.catalog (s.alive (terminals.filterMap (·.lineage))) terminals

/-- The step that a handle comes from. -/
def step? (s : Session α) (a : Asset) : Option Step := a.lineage.bind s.catalog.step?

end Session

end Provenance
