import Mathlib
import Provenance.Proofs.Connection

/-!
# A database answers as memory does

The rows of a database hold the texts of the data, under pairs of names and locations.  A name and a
location can have one text in common with others, so the pair is what counts.  Data that is written in the
course of the operations is read back from its text; then the rows mirror what memory holds
(`Database.Mirrors`), whatever is written, read or asked for, and every answer is the same.

* `Database.simulates_memory`: each operation is answered alike, and the rows go on mirroring memory.
* `Database.answers_eq_memory`: a database that was empty answers every series of operations as memory
  does, by what was last written under the address of each handle.  So does a database in a file that is
  left alone.
-/

namespace Provenance

/-- Data that is written is read back from its text. -/
def Operation.ReadBack : Operation → Prop
  | .write _ data => Dataset.ofText? data.text = some data
  | .read _ | .holds _ => True

theorem Operation.Alike.readBack_iff {op op' : Operation} (h : Alike op op') :
    op.ReadBack ↔ op'.ReadBack := by
  cases h <;> rfl

namespace Database

/-- The rows hold the texts of what memory holds, and all of it can be read back. -/
structure Mirrors (rows : Rows) (m : Memory) : Prop where
  lookup : ∀ a : Asset, rows.lookup (key a) = (m.get? a.address).map Dataset.text
  readBack : ∀ b data, m.get? b = some data → Dataset.ofText? data.text = some data

theorem key_eq_iff {a b : Asset} : key a = key b ↔ a.address = b.address := by
  rw [key, key, Prod.mk.injEq, ← Address.mk.injEq]

/-- The row of an asset after one was written. -/
theorem lookup_write (a b : Asset) (data : Dataset) (rows : Rows) :
    (write a data rows).lookup (key b) =
      if b.address = a.address then some data.text else rows.lookup (key b) := by
  -- Pairs are compared part by part where rows are looked up, and as a whole where they are assigned.
  have hbeq : (instBEqProd : BEq (String × String)) = instBEqOfDecidableEq := lawful_beq_subsingleton _ _
  rw [write, hbeq, lookup_assign]
  exact if_congr key_eq_iff rfl rfl

theorem mirrors_empty : Mirrors [] .empty where
  lookup _ := rfl
  readBack _ _ h := absurd h (by simp [Memory.get?, Memory.empty])

variable {rows : Rows} {m : Memory}

/-- Reading finds in the rows what memory holds. -/
theorem Mirrors.read_eq (h : Mirrors rows m) (a : Asset) : read a rows = (Memory.store.read a m).1 := by
  unfold read Memory.store
  dsimp only
  rw [h.lookup a]
  cases hheld : m.get? a.address with
  | none => rfl
  | some data => simp only [Option.map_some, h.readBack _ data hheld]

/-- A row that is written mirrors what memory holds then. -/
theorem Mirrors.write (h : Mirrors rows m) (a : Asset) {data : Dataset}
    (hdata : Dataset.ofText? data.text = some data) :
    Mirrors (write a data rows) (m.write a.address data) where
  lookup b := by
    rw [lookup_write]
    by_cases hb : b.address = a.address
    · rw [if_pos hb, hb, Memory.get?_write_self]
      rfl
    · rw [if_neg hb, Memory.get?_write_of_ne m data hb, h.lookup b]
  readBack b data' h' := by
    by_cases hb : b = a.address
    · rw [hb, Memory.get?_write_self] at h'
      obtain rfl := Option.some.inj h'
      exact hdata
    · rw [Memory.get?_write_of_ne m data hb] at h'
      exact h.readBack b data' h'

/-- **The table of a database answers each operation as memory does.** -/
theorem simulates_memory : store.Simulates Memory.store Operation.ReadBack Mirrors := by
  intro op rows m hop h
  have hquiet : ∀ a, (Memory.store.read a m).2 = m := fun a => by
    unfold Memory.store
    dsimp only
    split <;> rfl
  cases op with
  | read a =>
    refine ⟨congrArg Answer.data (h.read_eq a), ?_⟩
    rw [Store.perform, Store.perform, hquiet]
    exact h
  | write a data => exact ⟨rfl, h.write a hop⟩
  | holds a =>
    refine ⟨?_, h⟩
    simp only [Store.perform, store, Memory.store, holds, h.lookup a, Option.isSome_map]

/-- **A database answers every series of operations as memory does**, if both are empty at first: an
operation is answered by what was last written under the address of its handle, and nothing else about the
handle matters.  A database in a file that is left alone answers in the same way. -/
theorem answers_eq_memory {ops : List Operation} (hops : ∀ op ∈ ops, op.ReadBack) :
    store.answers ops [] = Memory.store.answers ops .empty ∧
      (∀ before op rest, ops = before ++ op :: rest →
        (store.answers ops [])[before.length]? = some (op.answer (Operation.lastWritten before))) ∧
      (∀ ops', List.Forall₂ Operation.Alike ops ops' → store.answers ops' [] = store.answers ops []) ∧
      ∀ c d i, Connection.Settled c d i → i.rows = [] →
        Connection.store.answers ops (c, d) = Memory.store.answers ops .empty := by
  have hmemory : ∀ {ops : List Operation}, (∀ op ∈ ops, op.ReadBack) →
      store.answers ops [] = Memory.store.answers ops .empty := fun h =>
    simulates_memory.answers_eq h mirrors_empty
  refine ⟨hmemory hops, ?_, fun ops' halike => ?_, fun c d i hc hi => ?_⟩
  · rintro before op rest rfl
    rw [hmemory hops]
    exact Memory.answers_eq_answer before op rest
  · have hops' : ∀ op ∈ ops', op.ReadBack := fun op' hop' => by
      obtain ⟨op, hop, hsame⟩ := exists_of_forall₂_right halike hop'
      exact hsame.readBack_iff.1 (hops op hop)
    rw [hmemory hops', hmemory hops, Memory.answers_eq_of_alike halike]
  · have htable : Connection.store.answers ops (c, d) = store.answers ops [] :=
      Connection.simulates_table.answers_eq (fun _ _ => trivial) ⟨i, hc, hi⟩
    rw [htable, hmemory hops]

/-- Ragged rows and no columns at all, under two addresses with one text, and a handle with a label; in a
table and in a file that has just been made. -/
theorem answers_eq_memory_ragged :
    let a : Asset := ⟨⟨"a@b", "c"⟩, none, none, none, 0⟩
    let b : Asset := ⟨⟨"a", "b@c"⟩, none, none, none, 1⟩
    let ragged : Dataset := ⟨["v", "w"], [[.int 1], [.text "é\n", .null, .list [.bool true]], []]⟩
    let bare : Dataset := ⟨[], [[]]⟩
    let ops : List Operation := [.read a, .write a ragged, .holds b, .write b bare,
      .read (a.relabel "A" "first"), .read b, .write (a.store (.plain .volume)) bare, .read a]
    (∀ op ∈ ops, op.ReadBack) ∧ store.answers ops [] = Memory.store.answers ops .empty ∧
      store.answers ops [] = [.data (.error (.storage "c" .absent)), .written (.ok ()),
        .held (.ok false), .written (.ok ()), .data (.ok ragged), .data (.ok bare), .written (.ok ()),
        .data (.ok bare)] ∧
      ∃ c d, Connection.open? "data/base.db" (Disk.withDirectory "data") = (some c, d) ∧
        Connection.store.answers ops (c, d) = Memory.store.answers ops .empty := by
  intro a b ragged bare ops
  have hragged : Dataset.ofText? ragged.text = some ragged := by cbv
  have hbare : Dataset.ofText? bare.text = some bare := by cbv
  have hops : ∀ op ∈ ops, op.ReadBack := by
    simp only [ops, List.forall_mem_cons, Operation.ReadBack, hragged, hbare, List.not_mem_nil, false_implies,
      implies_true, and_true]
  obtain ⟨hmemory, -, -, hfile⟩ := answers_eq_memory hops
  obtain ⟨c, d, hopen, hsettled⟩ := Connection.exists_settled
  exact ⟨hops, hmemory, hmemory.trans rfl, c, d, hopen, hfile c d _ hsettled rfl⟩

end Database

end Provenance
