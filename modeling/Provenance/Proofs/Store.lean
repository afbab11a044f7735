import Provenance.Store.Memory

/-!
# Storage that remembers

A storage remembers if what it answers is a matter of the address alone: reading gives what is held under
the address of the asset, and a write that succeeds is held from then on, until the next write to the same
address.  Reading may fail, and so may writing; then nothing is said of the address that was written to.

A storage that a refused write leaves as it was says what it holds after every operation
(`Store.Unharmed`).  One that is undisturbed gives what it holds and takes it again
(`Store.Undisturbed`).

Memory is all of this (`Memory.unharmed`, `Memory.undisturbed`).
-/

namespace Provenance

universe u

/-- What a storage answers is what it holds, by address; `held` says what that is in each state. -/
structure Store.Remembers {σ : Type u} (store : Store σ) (held : σ → Address → Option Dataset) :
    Prop where
  read_ok : ∀ a state data state', store.read a state = (.ok data, state') →
    held state a.address = some data
  read_held : ∀ a state result state', store.read a state = (result, state') →
    held state' = held state
  write_ok : ∀ a data state state', store.write a data state = (.ok (), state') →
    held state' a.address = some data
  write_other : ∀ a data state result state', store.write a data state = (result, state') →
    ∀ b, b ≠ a.address → held state' b = held state b

/-- **Memory remembers.** -/
theorem Memory.remembers : Memory.store.Remembers Memory.get? where
  read_ok a m data m' h := by
    unfold Memory.store at h
    dsimp only at h
    split at h
    · rename_i d hd
      obtain ⟨hdata, -⟩ := Prod.mk.inj h
      rw [hd, Except.ok.inj hdata]
    · exact absurd (Prod.mk.inj h).1 (by simp)
  read_held a m result m' h := by
    unfold Memory.store at h
    dsimp only at h
    split at h
    · rw [(Prod.mk.inj h).2]
    · rw [(Prod.mk.inj h).2]
  write_ok a data m m' h := by
    rw [← (Prod.mk.inj h).2]
    exact Memory.get?_write_self m a.address data
  write_other a data m result m' h b hb := by
    rw [← (Prod.mk.inj h).2]
    exact Memory.get?_write_of_ne m data hb

/-- A storage that remembers, and that a refused write leaves as it was. -/
structure Store.Unharmed {σ : Type u} (store : Store σ) (held : σ → Address → Option Dataset) : Prop
    extends store.Remembers held where
  write_error : ∀ a data state fault state', store.write a data state = (.error fault, state') →
    held state' a.address = held state a.address

/-- A storage that can be read where it holds something, and that takes again what it holds. -/
structure Store.Undisturbed {σ : Type u} (store : Store σ) (held : σ → Address → Option Dataset) :
    Prop where
  read : ∀ a state data, held state a.address = some data → (store.read a state).1 = .ok data
  write : ∀ a state data, held state a.address = some data → (store.write a data state).1 = .ok ()

/-- **Memory refuses no write.** -/
theorem Memory.unharmed : Memory.store.Unharmed Memory.get? where
  toRemembers := Memory.remembers
  write_error _ _ _ _ _ h := absurd (Prod.mk.inj h).1 (by simp)

/-- **Memory is undisturbed.** -/
theorem Memory.undisturbed : Memory.store.Undisturbed Memory.get? where
  read a m data h := by
    unfold Memory.store
    dsimp only
    rw [h]
  write _ _ _ _ := rfl

end Provenance
