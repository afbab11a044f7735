import Provenance.Asset
import Provenance.Dataset

/-! # Storage

A storage reads and writes the data of assets, and can be asked whether it holds any. It acts on a state
of its own kind. Every operation answers the state as well: a failed write can leave traces, and whoever
looks can clear away what others have left. -/

namespace Provenance

universe u v w

/-- What can be done with the states `σ` of a storage. -/
structure Store (σ : Type u) where
  kind : String
  read : Asset → σ → Except Fault Dataset × σ
  write : Asset → Dataset → σ → Except Fault Unit × σ
  holds : Asset → σ → Except Fault Bool × σ

namespace Store

/-- The fault of a storage at an asset. -/
def fault (a : Asset) (reason : StorageFault) : Fault := .storage a.address.location reason

/-- An operation on a state that is a part of a larger one. -/
def lift {σ : Type u} {τ : Type v} {α : Type w} (get : τ → σ) (set : σ → τ → τ)
    (f : σ → α × σ) (t : τ) : α × τ :=
  let (result, part) := f (get t)
  (result, set part t)

/-- A storage whose state is a part of a larger one. -/
def within {σ : Type u} {τ : Type v} (s : Store σ) (get : τ → σ) (set : σ → τ → τ) : Store τ where
  kind := s.kind
  read a := lift get set (s.read a)
  write a d := lift get set (s.write a d)
  holds a := lift get set (s.holds a)

end Store

end Provenance
