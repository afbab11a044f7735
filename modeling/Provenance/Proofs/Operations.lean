import Provenance.Proofs.Assoc
import Provenance.Store.Memory

/-!
# What a storage answers to a series of operations

A storage is told apart from another by nothing but its answers.  Here it is asked a series of operations,
one after the other, and every answer counts: what a reading gives, whether a write succeeds, and whether
something is held.

* `Store.Simulates`: two storages give the same answer to every operation, and stay related by it; so they
  answer every series alike (`Store.Simulates.answers_eq`).
* `Memory.answers_eq_answer`: in memory that was empty at first, an operation finds what was last written
  under the address of its handle, and nothing else about the handle matters (`Memory.answers_eq_of_alike`).
-/

namespace Provenance

universe u v

/-- An operation on a storage. -/
inductive Operation where
  | read (a : Asset)
  | write (a : Asset) (data : Dataset)
  | holds (a : Asset)

/-- What a storage answers to an operation. -/
inductive Answer where
  | data (result : Except Fault Dataset)
  | written (result : Except Fault Unit)
  | held (result : Except Fault Bool)

namespace Operation

/-- The data that an operation puts under an address. -/
def written? (b : Address) : Operation → Option Dataset
  | write a data => if a.address = b then some data else none
  | read _ | holds _ => none

/-- The data that is written last under an address by a series of operations. -/
def lastWritten (ops : List Operation) (b : Address) : Option Dataset :=
  (ops.filterMap (written? b)).getLast?

/-- The answer to an operation if `held` is what the addresses hold. -/
def answer (held : Address → Option Dataset) : Operation → Answer
  | read a => .data ((held a.address).elim (.error (Store.fault a .absent)) .ok)
  | write _ _ => .written (.ok ())
  | holds a => .held (.ok (held a.address).isSome)

/-- Operations of one kind at one address, with the same data: the handles may differ in all the rest. -/
inductive Alike : Operation → Operation → Prop
  | read {a b : Asset} : a.address = b.address → Alike (read a) (read b)
  | write {a b : Asset} (data : Dataset) : a.address = b.address → Alike (write a data) (write b data)
  | holds {a b : Asset} : a.address = b.address → Alike (holds a) (holds b)

theorem lastWritten_cons (op : Operation) (ops : List Operation) (b : Address) :
    lastWritten (op :: ops) b = (lastWritten ops b).or (op.written? b) := by
  unfold lastWritten
  cases hop : op.written? b with
  | none => rw [List.filterMap_cons_none hop, Option.or_none]
  | some data =>
    rw [List.filterMap_cons_some hop, List.getLast?_cons]
    cases (ops.filterMap (written? b)).getLast? <;> rfl

end Operation

open Operation

namespace Store

variable {σ : Type u} {τ : Type v}

/-- Carries an operation out. -/
def perform (store : Store σ) : Operation → σ → Answer × σ
  | .read a, s => (.data (store.read a s).1, (store.read a s).2)
  | .write a data, s => (.written (store.write a data s).1, (store.write a data s).2)
  | .holds a, s => (.held (store.holds a s).1, (store.holds a s).2)

/-- The state after a series of operations. -/
def after (store : Store σ) (ops : List Operation) (s : σ) : σ :=
  ops.foldl (fun s op => (store.perform op s).2) s

/-- The answers to a series of operations. -/
def answers (store : Store σ) : List Operation → σ → List Answer
  | [], _ => []
  | op :: ops, s => (store.perform op s).1 :: store.answers ops (store.perform op s).2

@[simp] theorem length_answers (store : Store σ) :
    ∀ (ops : List Operation) (s : σ), (store.answers ops s).length = ops.length
  | [], _ => rfl
  | _ :: ops, _ => congrArg (· + 1) (store.length_answers ops _)

theorem answers_append (store : Store σ) : ∀ (ops ops' : List Operation) (s : σ),
    store.answers (ops ++ ops') s = store.answers ops s ++ store.answers ops' (store.after ops s)
  | [], _, _ => rfl
  | op :: ops, ops', s => congrArg (_ :: ·) (store.answers_append ops ops' (store.perform op s).2)

/-- The answer to an operation is the one that it gets in the state after those before it. -/
theorem getElem?_answers (store : Store σ) (before : List Operation) (op : Operation)
    (rest : List Operation) (s : σ) :
    (store.answers (before ++ op :: rest) s)[before.length]? =
      some (store.perform op (store.after before s)).1 := by
  rw [answers_append, List.getElem?_append_right (Nat.le_of_eq (length_answers ..)), length_answers, Nat.sub_self]
  rfl

/-- Two storages answer each operation of a kind alike in states that are related, and the states stay so. -/
def Simulates (store : Store σ) (spec : Store τ) (Fair : Operation → Prop) (R : σ → τ → Prop) : Prop :=
  ∀ op s t, Fair op → R s t →
    (store.perform op s).1 = (spec.perform op t).1 ∧ R (store.perform op s).2 (spec.perform op t).2

/-- **Storages that answer each operation alike answer every series alike.** -/
theorem Simulates.answers_eq {store : Store σ} {spec : Store τ} {Fair : Operation → Prop}
    {R : σ → τ → Prop} (h : store.Simulates spec Fair R) : ∀ {ops : List Operation} {s : σ} {t : τ},
    (∀ op ∈ ops, Fair op) → R s t → store.answers ops s = spec.answers ops t
  | [], _, _, _, _ => rfl
  | op :: ops, s, t, hops, hst => by
    obtain ⟨hanswer, hnext⟩ := h op s t (hops op List.mem_cons_self) hst
    have hrest := h.answers_eq (fun op' hop' => hops op' (List.mem_cons_of_mem _ hop')) hnext
    rw [answers, answers, hanswer, hrest]

end Store

namespace Memory

/-- Memory answers an operation by what the address of its handle holds. -/
theorem perform_fst (op : Operation) (m : Memory) : (store.perform op m).1 = op.answer m.get? := by
  cases op with
  | read a =>
    simp only [Store.perform, store, answer]
    cases m.get? a.address <;> rfl
  | write a data => rfl
  | holds a => rfl

/-- After an operation an address holds what was written under it, else what it held before. -/
theorem get?_perform (op : Operation) (m : Memory) (b : Address) :
    (store.perform op m).2.get? b = (op.written? b).or (m.get? b) := by
  cases op with
  | read a =>
    simp only [Store.perform, store, written?, Option.none_or]
    cases m.get? a.address <;> rfl
  | write a data =>
    by_cases hb : a.address = b
    · subst hb
      simp [Store.perform, store, written?]
    · simp [Store.perform, store, written?, hb, get?_write_of_ne m data (Ne.symm hb)]
  | holds a => rfl

/-- After a series of operations an address holds what was written last under it. -/
theorem get?_after (b : Address) : ∀ (ops : List Operation) (m : Memory),
    (store.after ops m).get? b = (lastWritten ops b).or (m.get? b)
  | [], _ => rfl
  | op :: ops, m => by
    have hrest := get?_after b ops (store.perform op m).2
    rw [get?_perform, ← Option.or_assoc, ← lastWritten_cons] at hrest
    exact hrest

/-- **In memory that was empty, every operation is answered by what was written last before it.** -/
theorem answers_eq_answer (before : List Operation) (op : Operation) (rest : List Operation) :
    (store.answers (before ++ op :: rest) empty)[before.length]? =
      some (op.answer (lastWritten before)) := by
  have hheld : (store.after before empty).get? = lastWritten before := by
    funext b
    rw [get?_after]
    exact Option.or_none
  rw [Store.getElem?_answers, perform_fst, hheld]

theorem perform_eq_of_alike {op op' : Operation} (h : Alike op op') (m : Memory) :
    store.perform op m = store.perform op' m := by
  cases h <;> rename_i h <;> simp only [Store.perform, store, Store.fault, h]

/-- **Nothing of a handle but its address makes a difference to memory.** -/
theorem answers_eq_of_alike {ops ops' : List Operation} (h : List.Forall₂ Alike ops ops') :
    ∀ m : Memory, store.answers ops m = store.answers ops' m := by
  induction h with
  | nil => exact fun _ => rfl
  | cons hop _ ih =>
    intro m
    rw [Store.answers, Store.answers, perform_eq_of_alike hop, ih]

end Memory

end Provenance
