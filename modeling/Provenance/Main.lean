import Provenance.Demo

/-! # The command line

The first argument is the mode, or `LINEAGE_MODE` is, or `analyze`. -/

namespace Provenance

/-- The variables that the program looks at. -/
def variableNames : List String :=
  [Settings.workersName, Settings.policyName, Settings.rootName, Settings.logName,
    Settings.regionName, "LINEAGE_MODE", "LINEAGE_BACKEND"]

/-- Some digits that tell runs apart. -/
def runName : IO String := do
  let n ← IO.rand 0 (UInt64.size - 1)
  return String.ofList (Nat.toDigits 16 n)

end Provenance

open Provenance in
/-- Uses the small pipeline and prints what came of it. -/
def main (args : List String) : IO UInt32 := do
  let texts ← variableNames.filterMapM fun name => do return (← IO.getEnv name).map (name, ·)
  let name ← runName
  let before ← IO.monoMsNow
  let use := Demo.use 4 (fun name => texts.lookup name) args
  let after ← IO.monoMsNow
  let output := use.output name (toString (after - before))
  IO.print output.out
  IO.eprint output.err
  return if output.failed then 1 else 0
