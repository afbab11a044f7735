import Provenance.Catalog
import Provenance.Walk

/-! # Surveying what lies behind terminals

A survey follows handles backward, from the terminals over producers to their inputs. Handles with one
address are merged into the most telling one. When handles with one address name different producers,
a later step that was declared to replace wins; two steps of which the later was not are a conflict.

A step that loses may have been followed already, so in the end only what the winning producers lead to
is kept. -/

namespace Provenance

/-- The handle and the producer that were settled on for each address, and the steps whose inputs were
followed, the last one first. -/
structure Survey where
  handles : List (Address × Asset)
  producers : List (Address × Step)
  expanded : List StepId

namespace Survey

/-- How much a handle tells: lineage counts most, then storage, then a label. -/
def rank (a : Asset) : Nat :=
  (if a.lineage.isSome then 4 else 0) + (if a.storage.isSome then 2 else 0) +
    (if a.label.isSome then 1 else 0)

/-- Takes a handle over where it tells more than the one that is known. -/
def merge (a : Asset) (handles : List (Address × Asset)) : List (Address × Asset) :=
  match handles.lookup a.address with
  | some known => if rank known ≥ rank a then handles else assign a.address a handles
  | none => assign a.address a handles

/-- Whether a step takes the place of the one that stands. -/
def contest (address : Address) (standing : Option Step) (s : Step) : Except Fault Bool :=
  match standing with
  | none => .ok true
  | some old =>
    if old.id = s.id then .ok false
    else if old.id < s.id then
      if s.replaces then .ok true else .error (.overwrite address.text old.task.name)
    else if old.replaces then .ok false
    else .error (.overwrite address.text s.task.name)

/-- The inputs of every step of a catalog. -/
def expansions (c : Catalog) : List (StepId × List (String × Asset)) :=
  c.steps.map fun s => (s.id, s.inputs)

/-- The survey before anything is followed. -/
def empty : Survey := ⟨[], [], []⟩

/-- Follows the handles of a worklist. The inputs of a step are put on it once, when the step first wins
an address. -/
def follow (c : Catalog) (alive : List StepId) (v : Survey) : List Asset → Except Fault Survey
  | [] => .ok v
  | a :: work =>
    let handles := merge a v.handles
    match _h : c.producer? alive a with
    | none => follow c alive { v with handles } work
    | some s =>
      match contest a.address (v.producers.lookup a.address) s with
      | .error fault => .error fault
      | .ok false => follow c alive { v with handles } work
      | .ok true =>
        let producers := assign a.address s v.producers
        if s.id ∈ v.expanded then follow c alive { v with handles, producers } work
        else follow c alive ⟨handles, producers, s.id :: v.expanded⟩ (s.inputs.map (·.2) ++ work)
termination_by work => work.length + Walk.pending (expansions c) v.expanded
decreasing_by
  all_goals try (simp; done)
  have hs : (s.id, s.inputs) ∈ expansions c :=
    List.mem_map.2 ⟨s, Catalog.mem_of_producer? _h, rfl⟩
  have := Walk.pending_add_length_le hs (by assumption)
  simp; omega

/-- The addresses that each produced address is made from. -/
def sources (producers : List (Address × Step)) : List (Address × List Address) :=
  producers.map fun e => (e.1, e.2.inputs.map (·.2.address))

/-- Keeps the producers that the terminals lead to. -/
def prune (terminals : List Address) (v : Survey) : Survey :=
  let reached := Walk.reach (sources v.producers) [] terminals
  { v with producers := v.producers.filter fun e => e.1 ∈ reached }

/-- Surveys what lies behind terminals. -/
def ofTerminals (c : Catalog) (alive : List StepId) (terminals : List Asset) : Except Fault Survey :=
  (follow c alive empty terminals).map (prune (terminals.map (·.address)))

/-- The number of the producer of an address. -/
def producerId? (v : Survey) (a : Address) : Option StepId := (v.producers.lookup a).map (·.id)

end Survey

end Provenance
