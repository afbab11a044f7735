import Provenance.Fault
import Provenance.Infra.Resource

/-! # Plans

A plan lists the resources of one provider by their names. A name is taken by what the first resource
under it was made for: a resource made for the same may replace it, any other is refused. -/

namespace Provenance

/-- The resources of a provider. -/
structure Plan where
  provider : String
  resources : Index Resource

namespace Plan

/-- A plan without resources. -/
def empty (provider : String) : Plan := ⟨provider, .empty⟩

/-- Adds a resource, or puts it in place of one that was made for the same. The answer is the name under
which the resource stands, or why it was refused; beside it is the plan afterwards. -/
def insert (p : Plan) (r : Resource) : Except Fault ResourceId × Plan :=
  match p.resources.find? r.id with
  | some held =>
    if held.origin = r.origin then (.ok r.id, { p with resources := p.resources.insert r.id r })
    else (.error (.compilation r.origin (.uniqueName r.id held.origin) p.provider), p)
  | none => (.ok r.id, { p with resources := p.resources.insert r.id r })

/-- The resource with a name. -/
def get? (p : Plan) (id : ResourceId) : Option Resource := p.resources.find? id

/-- Whether there is a resource with a name. -/
def contains (p : Plan) (id : ResourceId) : Bool := p.resources.contains id

/-- The number of resources. -/
def size (p : Plan) : Nat := p.resources.size

/-- The names of the resources, sorted. -/
def ids (p : Plan) : List ResourceId := p.resources.keys

/-- The resources in the order of their names. -/
def toList (p : Plan) : List Resource := p.resources.values

/-- The resources of a kind. -/
def ofKind (p : Plan) (kind : String) : List Resource := p.toList.filter (·.kind == kind)

/-- The resources that were made for something. -/
def ofOrigin (p : Plan) (origin : String) : List Resource := p.toList.filter (·.origin == origin)

/-- The pairs of a resource and one that it depends on, sorted. -/
def edges (p : Plan) : List (ResourceId × ResourceId) :=
  p.resources.entries.flatMap fun e => e.2.dependsOn.toList.map (e.1, ·)

/-- The first resource with a dependency that the plan lacks, and its first such dependency. -/
def dangling? (p : Plan) : Option (ResourceId × Resource × ResourceId) :=
  p.resources.entries.findSome? fun e =>
    (e.2.dependsOn.toList.find? fun d => !p.contains d).map fun d => (e.1, e.2, d)

/-- Refuses a plan in which a dependency is missing. -/
def checked (p : Plan) : Except Fault Plan :=
  match p.dangling? with
  | some (id, r, missing) => .error (.compilation r.origin (.dependency missing id) p.provider)
  | none => .ok p

/-- `Resource.same` along two lists of entries with the same names. -/
def sameEntries : List (ResourceId × Resource) → List (ResourceId × Resource) → Bool
  | [], [] => true
  | (i, r) :: as, (j, s) :: bs => i == j && r.same s && sameEntries as bs
  | _, _ => false

/-- Whether two plans are the same. -/
def same (a b : Plan) : Bool :=
  a.provider == b.provider && sameEntries a.resources.entries b.resources.entries

end Plan

end Provenance
