import Provenance.Json.Basic

/-! # Tabular data

A dataset has named columns and rows of JSON values. Rows need not be as wide as the columns: only
`pushRow` fits a row to them. A value beyond the last column has no name, and one that is missing from
a short row is not there. -/

namespace Provenance

/-- Columns and rows. -/
structure Dataset where
  columns : List String
  rows : List (List Json)
  deriving Inhabited

namespace Dataset

/-- Data without columns and rows. -/
def empty : Dataset := ⟨[], []⟩

/-- The row cut or filled up with nulls to a width. -/
def fit (width : Nat) (row : List Json) : List Json :=
  row.take width ++ List.replicate (width - row.length) .null

/-- Adds a row, fitted to the columns. -/
def pushRow (d : Dataset) (row : List Json) : Dataset :=
  { d with rows := d.rows ++ [fit d.columns.length row] }

/-- The number of rows. -/
def size (d : Dataset) : Nat := d.rows.length

/-- The place of the first column with a name. -/
def columnIndex? (d : Dataset) (name : String) : Option Nat := d.columns.findIdx? (· == name)

/-- The values of a column, one for each row that is wide enough. -/
def column (d : Dataset) (name : String) : List Json :=
  match d.columnIndex? name with
  | none => []
  | some i => d.rows.filterMap (·[i]?)

/-- The value of a column in a row. -/
def value? (d : Dataset) (row : Nat) (name : String) : Option Json :=
  (d.columnIndex? name).bind fun i => (d.rows[row]?).bind (·[i]?)

/-- Whether two datasets hold the same. -/
def same (a b : Dataset) : Bool :=
  a.columns == b.columns && Json.sameItems (a.rows.map .list) (b.rows.map .list)

/-- The JSON form. -/
def toJson (d : Dataset) : Json :=
  .object [("columns", .texts d.columns), ("rows", .list (d.rows.map .list))]

/-- Every row is as wide as the columns. -/
def Rectangular (d : Dataset) : Prop := ∀ row ∈ d.rows, row.length = d.columns.length

@[simp] theorem length_fit (width : Nat) (row : List Json) : (fit width row).length = width := by
  simp [fit]; omega

end Dataset

end Provenance
