import Provenance.Assoc
import Provenance.Store.Basic

/-! # Storage in memory

The data of every address, and how often it was written. -/

namespace Provenance

/-- Data under addresses, and the numbers of writes. -/
structure Memory where
  data : List (Address × Dataset)
  writes : List (Address × Nat)

namespace Memory

/-- The memory that holds nothing. -/
def empty : Memory := ⟨[], []⟩

/-- The data under an address. -/
def get? (m : Memory) (a : Address) : Option Dataset := m.data.lookup a

/-- How often data was written under an address. -/
def writeCount (m : Memory) (a : Address) : Nat := (m.writes.lookup a).getD 0

/-- Puts data under an address without counting it as a write. -/
def seed (m : Memory) (a : Address) (d : Dataset) : Memory := { m with data := assign a d m.data }

/-- Writes data under an address. -/
def write (m : Memory) (a : Address) (d : Dataset) : Memory :=
  { m.seed a d with writes := assign a (m.writeCount a + 1) m.writes }

/-- Memory as a storage. -/
def store : Store Memory where
  kind := "memory"
  read a m :=
    match m.get? a.address with
    | some d => (.ok d, m)
    | none => (.error (Store.fault a .absent), m)
  write a d m := (.ok (), m.write a.address d)
  holds a m := (.ok (m.get? a.address).isSome, m)

@[simp] theorem get?_write_self (m : Memory) (a : Address) (d : Dataset) :
    (m.write a d).get? a = some d := lookup_assign_self a d m.data

theorem get?_write_of_ne (m : Memory) {a b : Address} (d : Dataset) (h : b ≠ a) :
    (m.write a d).get? b = m.get? b := lookup_assign_of_ne d h m.data

end Memory

end Provenance
