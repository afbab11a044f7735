import Provenance.Json.Basic

/-! # Resources

A resource is one thing that a provider keeps: a bucket, a function, a permission. It is named by its
kind and its name, has properties, depends on other resources, and remembers what it was made for. -/

namespace Provenance

/-- The name of a resource in a plan. -/
abbrev ResourceId := String

/-- One thing that a provider keeps. -/
structure Resource where
  kind : String
  name : String
  properties : Index Json
  dependsOn : KeySet
  origin : String

namespace Resource

/-- A resource without properties, dependencies and origin. -/
def plain (kind name : String) : Resource := ⟨kind, name, .empty, .empty, ""⟩

/-- The name of a resource with a kind and a name. -/
def idOf (kind name : String) : ResourceId := kind ++ "." ++ name

/-- The name of the resource in a plan. -/
def id (r : Resource) : ResourceId := idOf r.kind r.name

/-- Gives a property a value. -/
def set (r : Resource) (key : String) (value : Json) : Resource :=
  { r with properties := r.properties.insert key value }

/-- Gives a property a value if there is one. -/
def setSome (r : Resource) (key : String) : Option Json → Resource
  | some value => r.set key value
  | none => r

/-- Gives a property a text. -/
def text (r : Resource) (key value : String) : Resource := r.set key (.text value)

/-- The value of a property. -/
def property? (r : Resource) (key : String) : Option Json := r.properties.find? key

/-- Adds a dependency. -/
def depend (r : Resource) (on : ResourceId) : Resource := { r with dependsOn := r.dependsOn.add on }

/-- Adds dependencies. -/
def dependAll (r : Resource) (ids : List ResourceId) : Resource := ids.foldl depend r

/-- The resource as made for something. -/
def madeFor (r : Resource) (origin : String) : Resource := { r with origin }

/-- Whether two resources are the same, down to the values of their properties. -/
def same (a b : Resource) : Bool :=
  a.kind == b.kind && a.name == b.name && a.origin == b.origin &&
    a.dependsOn.toList == b.dependsOn.toList &&
    Json.sameFields a.properties.entries b.properties.entries

end Resource

/-- A change to a resource. -/
inductive Edit where
  | set (key : String) (value : Json)
  | copy (source target : String)
  | rename (name : String)
  | retype (kind : String)
  | reassign (origin : String)
  | depend (kind name : String)
  | clear

/-- The changed resource. Copying a property that is missing changes nothing. -/
def Edit.apply (e : Edit) (r : Resource) : Resource :=
  match e with
  | set key value => r.set key value
  | copy source target => r.setSome target (r.property? source)
  | rename name => { r with name }
  | retype kind => { r with kind }
  | reassign origin => { r with origin }
  | depend kind name => Resource.depend r (Resource.idOf kind name)
  | clear => { r with dependsOn := .empty }

/-- The resource after changes, one after the other. -/
def Resource.edited (r : Resource) (edits : List Edit) : Resource :=
  edits.foldl (fun r e => e.apply r) r

end Provenance
