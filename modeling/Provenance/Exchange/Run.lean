import Provenance.Exchange.Asset
import Provenance.Exchange.Target
import Provenance.Run.Report

/-! # Parts of reports as JSON -/

namespace Provenance.Run

open Json.Record

/-- Reads a policy. -/
def Policy.reader : Reader Policy := choice ([.boundaries, .all].map fun p => (Policy.word p, p))

/-- Reads a site. -/
def Site.reader : Reader Site := choice ([.process, .engines].map fun s => (Site.word s, s))

/-- Reads the word for what happened to a step, and gives the word again. -/
def eventWordReader : Reader String :=
  choice ([Event.started, .finished, .written default, .failed].map fun e => (e.word, e.word))

/-- The JSON form of a completed step. -/
def Completed.toJson (c : Completed) : Json :=
  .object [
    ("step", .nat c.step),
    ("task", .text c.task),
    ("output", c.output.toJson),
    ("kind", .text c.kind.word),
    ("engine", .text c.engine),
    ("rows", .nat c.rows)]

/-- Reads a completed step. -/
def Completed.reader : Reader Completed := fun depth s => do
  let (depth, ps) ← parts ["step", "task", "output", "kind", "engine", "rows"] false depth s
  match ps with
  | [step, task, output, kind, engine, rows] =>
    return ⟨← required (natBelow UInt64.size) depth step, ← required string depth task,
      ← required Address.reader depth output, ← required TargetKind.reader depth kind,
      ← required string depth engine, ← required (natBelow UInt64.size) depth rows⟩
  | _ => none

/-- The JSON form of an entry of a trace. -/
def Entry.toJson (e : Entry) : Json :=
  .object [
    ("seq", .nat e.seq),
    ("kind", .text e.event.word),
    ("step", .nat e.step),
    ("task", .text e.task),
    ("node", .option Address.toJson e.event.address?)]

end Provenance.Run
