import Provenance.Index
import Provenance.Step

/-! # Drafts and joins

A draft is a task whose inputs are chosen and whose output is still open. A single asset makes a draft
with a task of one parameter; several assets are joined first, under names that must be exactly the
parameters of the task. -/

namespace Provenance

/-- A task with its inputs, in the order of its parameters. -/
structure Draft where
  task : Task
  inputs : List (String × Asset)

/-- The steps that the inputs of a draft come from. -/
def Draft.roots (d : Draft) : List StepId := d.inputs.filterMap (·.2.lineage)

/-- Gives an asset to a task of one parameter. -/
def Asset.transform (a : Asset) (t : Task) : Except Fault Draft :=
  match t.params with
  | [p] => .ok ⟨t, [(p, a)]⟩
  | ps => .error (.arity t.name 1 ps.length)

/-- The first name of a list that `seen` or the list itself holds before. -/
def repeated? (seen : List String) : List String → Option String
  | [] => none
  | n :: rest => if n ∈ seen then some n else repeated? (n :: seen) rest

theorem nodup_of_repeated? :
    ∀ {seen names : List String}, repeated? seen names = none →
      names.Nodup ∧ ∀ n ∈ names, n ∉ seen
  | seen, [], _ => by simp
  | seen, n :: rest, h => by
    unfold repeated? at h
    split at h
    · simp at h
    · rename_i hn
      have ⟨hd, hs⟩ := nodup_of_repeated? h
      refine ⟨List.nodup_cons.2 ⟨fun hm => (hs n hm) (List.mem_cons_self ..), hd⟩, fun m hm => ?_⟩
      rcases List.mem_cons.1 hm with rfl | hm
      · exact hn
      · exact fun hseen => hs m hm (List.mem_cons_of_mem _ hseen)

/-- At least two assets under names of their own. -/
structure Join where
  sources : List (String × Asset)
  distinct : (sources.map (·.1)).Nodup
  two_le : 2 ≤ sources.length

namespace Join

/-- Joins assets. A repeated name is reported before a short list. -/
def ofSources (sources : List (String × Asset)) : Except Fault Join :=
  match h : repeated? [] (sources.map (·.1)) with
  | some name => .error (.invalidJoin (.repeated name))
  | none =>
    if h₂ : 2 ≤ sources.length then .ok ⟨sources, (nodup_of_repeated? h).1, h₂⟩
    else .error (.invalidJoin (.tooFew sources.length))

/-- The names in the order in which they were given. -/
def names (j : Join) : List String := j.sources.map (·.1)

/-- The steps that the sources come from. -/
def roots (j : Join) : List StepId := j.sources.filterMap (·.2.lineage)

/-- The texts of `xs` that are not in `ys`, sorted and each once. -/
def without (xs ys : List String) : List String :=
  (KeySet.ofList (xs.filter (· ∉ ys))).toList

/-- Gives the sources to a task, in the order of its parameters. -/
def transform (j : Join) (t : Task) : Except Fault Draft :=
  let missing := without j.names t.params
  let unexpected := without t.params j.names
  if missing.isEmpty && unexpected.isEmpty then
    .ok ⟨t, t.params.filterMap fun p => (j.sources.lookup p).map (p, ·)⟩
  else .error (.parameterMismatch t.name missing unexpected)

end Join

end Provenance
