import Provenance.Fault

/-! # Assets

An asset is a handle to data at an address. The address is what the data is identified by; a label, a
storage declaration and the step that produces the data travel with the handle. Handles are values:
whatever changes a handle gives a new one, and two handles with one address speak of the same data.

Handles that come from one another share a *declaration*. The catalog remembers for each declaration
which step was last declared into it. -/

namespace Provenance

/-- What data is identified by. -/
structure Address where
  name : String
  location : String
  deriving DecidableEq, Repr, Inhabited

/-- The text of an address. -/
def Address.text (a : Address) : String := a.name ++ "@" ++ a.location

/-- How data is presented to readers. -/
structure Label where
  title : String
  description : Option String
  deriving DecidableEq, Repr

/-- The kind of place that holds data. -/
inductive Medium where
  | objectStore
  | table
  | volume
  deriving DecidableEq, Repr

/-- The word for a kind of place. -/
def Medium.word : Medium → String
  | .objectStore => "object_store"
  | .table => "table"
  | .volume => "volume"

/-- The format of files. -/
inductive Format where
  | csv
  | json
  deriving DecidableEq, Repr, Inhabited

/-- The word for a format, which is also the extension of its files. -/
def Format.extension : Format → String
  | .csv => "csv"
  | .json => "json"

/-- A declaration of how data is to be stored. -/
structure StorageSpec where
  medium : Medium
  format : Format
  versioned : Bool
  retentionDays : Option UInt32
  deriving DecidableEq

/-- Storage of a kind, in the usual format and without further wishes. -/
def StorageSpec.plain (medium : Medium) : StorageSpec := ⟨medium, .csv, false, none⟩

/-- A handle to data. -/
structure Asset where
  address : Address
  label : Option Label
  storage : Option StorageSpec
  lineage : Option StepId
  declaration : Nat
  deriving DecidableEq

namespace Asset

/-- The title of the label, else the name. -/
def title (a : Asset) : String := (a.label.map (·.title)).getD a.address.name

/-- Whether the handle knows no step that produces its data. -/
def isSource (a : Asset) : Bool := a.lineage.isNone

/-- The handle with another label; an empty description is none. -/
def relabel (a : Asset) (title description : String) : Asset :=
  { a with label := some ⟨title, if description.isEmpty then none else some description⟩ }

/-- The handle with a storage declaration. -/
def store (a : Asset) (spec : StorageSpec) : Asset := { a with storage := some spec }

/-- The handle without lineage. -/
def bare (a : Asset) : Asset := { a with lineage := none }

/-- The handle as the output of a step. -/
def producedBy (a : Asset) (id : StepId) : Asset := { a with lineage := some id }

/-- The format in which files of this asset are kept. -/
def format (a : Asset) : Format := (a.storage.map (·.format)).getD .csv

@[simp] theorem address_bare (a : Asset) : a.bare.address = a.address := rfl

@[simp] theorem address_producedBy (a : Asset) (id : StepId) : (a.producedBy id).address = a.address :=
  rfl

@[simp] theorem declaration_producedBy (a : Asset) (id : StepId) :
    (a.producedBy id).declaration = a.declaration := rfl

end Asset

end Provenance
