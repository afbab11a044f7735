/-! # Places on a disk

A path can be spelled in many ways, and what it leads to depends on the disk. A place is where an entry
stands: the names that lead to it from the top of the tree, written as one text. So two entries stand at
one place exactly if the texts are equal. -/

namespace Provenance.Disk

/-- Where an entry stands: the names from the top of the tree, each behind a slash. -/
structure Place where
  text : String
  deriving DecidableEq, Repr

namespace Place

/-- The top of the tree. -/
def top : Place := ⟨""⟩

/-- The place of a name in a directory. -/
def inside (p : Place) (name : String) : Place := ⟨p.text ++ "/" ++ name⟩

/-- The place of a companion, whose last name has a text behind it. -/
def beside (p : Place) (ending : String) : Place := ⟨p.text ++ ending⟩

/-- The last name, written in reverse, and the rest of the place in front of it. -/
def split (p : Place) : List Char × List Char := p.text.toList.reverse.span (· ≠ '/')

/-- The directory that a place is in; the top is in itself. -/
def outside (p : Place) : Place := ⟨String.ofList (p.split.2.drop 1).reverse⟩

/-- The last name. -/
def name (p : Place) : String := String.ofList p.split.1.reverse

/-- The path from a directory to a place inside it. -/
def from? (below p : Place) : Option String :=
  ((below.text.toList ++ ['/']).isPrefixOf? p.text.toList).map String.ofList

end Place

end Provenance.Disk
