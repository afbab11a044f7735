import Provenance.Exchange.Dataset
import Provenance.Exchange.Plan
import Provenance.Infra.Provider.Aws
import Provenance.Infra.Provider.Dataproc
import Provenance.Infra.Provider.Kubernetes
import Provenance.Infra.Provider.Machine
import Provenance.Inspect.Values
import Provenance.Pipeline
import Provenance.Session
import Provenance.Settings
import Provenance.Store.Memory

/-! # A small pipeline to try things on

Orders are joined with their customers on a function, and their revenue is summed up by day on a
cluster. The program uses this pipeline in the mode that its first argument names, and what it prints is
a value here. -/

namespace Provenance.Demo

/-- The JSON text that a customer is known by. -/
def customerKey (id : Json) : String := id.compact

/-- The regions of customers; of two rows for one customer the later counts. -/
def regions (customers : Dataset) : Index Json :=
  Index.ofList ((List.range customers.size).filterMap fun row =>
    match customers.value? row "customer_id", customers.value? row "region" with
    | some id, some region => some (customerKey id, region)
    | _, _ => none)

/-- Adds the region of its customer to each order. -/
def enrich (inputs : Inputs) : Except TaskFailure Dataset := do
  let orders ← inputs.require "orders"
  let customers ← inputs.require "customers"
  let regionOf := regions customers
  let rows ← (List.range orders.size).mapM fun row =>
    match orders.value? row "customer_id" with
    | none => Except.error (TaskFailure.message "orders row without customer_id")
    | some customer =>
      let value := fun name => (orders.value? row name).getD .null
      .ok [value "order_id", value "day", value "amount",
        (regionOf.find? (customerKey customer)).getD .null]
  return ⟨["order_id", "day", "amount", "region"], rows⟩

/-- Adds an amount to the total of a day. -/
def addAmount (totals : Index Float) (day : String) (amount : Float) : Index Float :=
  totals.insert day ((totals.find? day).getD 0.0 + amount)

/-- Sums up the amounts of each day. -/
def dailyRevenue (inputs : Inputs) : Except TaskFailure Dataset := do
  let enriched ← inputs.require "enriched"
  let totals ← (List.range enriched.size).foldlM
    (fun totals row =>
      match (enriched.value? row "day").bind Json.text? with
      | none => Except.error (TaskFailure.message "enriched row without day")
      | some day =>
        .ok (addAmount totals day (((enriched.value? row "amount").bind Json.float?).getD 0.0)))
    Index.empty
  return ⟨["day", "revenue"], totals.entries.map fun e => [.text e.1, .float e.2]⟩

/-- A body of a task that leaves nothing in the log. -/
def plainBody (f : Inputs → Except TaskFailure Dataset) (inputs : Inputs) : Attempt := ⟨f inputs, false, []⟩

/-- The task that joins orders with customers. -/
def enrichTask : Task :=
  { Task.plain "enrich_orders" ["orders", "customers"] (plainBody enrich) with
    target := { Target.serverless "enrich-fn" with memoryMb := 2048, expectedSecs := some 45 } }

/-- The task that sums up revenue. -/
def revenueTask : Task :=
  { Task.plain "daily_revenue" ["enriched"] (plainBody dailyRevenue) with
    target := { Target.cluster "spark" 4 with expectedSecs := some 300 }
    schedule := some ⟨"0 3 * * *", none⟩
    monitoring := some ⟨true, some 1800, ["data-oncall"]⟩ }

/-- The sources of the pipeline and its graph. -/
structure Parts where
  orders : Asset
  customers : Asset
  revenue : Asset
  graph : Graph

/-- Declares the pipeline. -/
def parts : Except Fault Parts := do
  let s : Session Unit := .start
  let (orders, s) := s.declare "orders" "s3://lake/raw/orders"
  let orders := (orders.relabel "Orders" "Raw order events").store
    { StorageSpec.plain .objectStore with retentionDays := some 90 }
  let (customers, s) := s.declare "customers" "s3://lake/raw/customers"
  let customers := customers.store (.plain .objectStore)
  let (enriched, s) := s.declare "enriched_orders" "s3://lake/curated/enriched_orders"
  let join ← Join.ofSources [("orders", orders), ("customers", customers)]
  let draft ← join.transform enrichTask
  let (enriched, s) ← s.put draft
    (enriched.store { StorageSpec.plain .objectStore with versioned := true })
  let (revenue, s) := s.declare "daily_revenue" "s3://lake/marts/daily_revenue"
  let draft ← enriched.transform revenueTask
  let (revenue, s) ← s.put draft (revenue.store (.plain .table))
  return ⟨orders, customers, revenue, ← s.graph [revenue]⟩

/-- The orders that the pipeline starts with. -/
def orderRows : Dataset :=
  ⟨["order_id", "customer_id", "day", "amount"], [
    [.int 1, .int 10, .text "2024-03-01", .float 25.0],
    [.int 2, .int 11, .text "2024-03-01", .float 12.5],
    [.int 3, .int 10, .text "2024-03-02", .float 40.0]]⟩

/-- The customers that the pipeline starts with. -/
def customerRows : Dataset :=
  ⟨["customer_id", "region"], [[.int 10, .text "emea"], [.int 11, .text "apac"]]⟩

/-- The provider with a name. -/
def provider (name : String) (settings : Settings) : Except Fault Provider :=
  match name with
  | "local" => .ok (Machine.provider settings.root)
  | "aws" => .ok (Aws.provider settings.region)
  | "dataproc" => .ok (Dataproc.provider "lineage-demo" settings.region)
  | "kubernetes" => .ok (Kubernetes.provider Kubernetes.usualSpace Kubernetes.usualImage)
  | other => .error (.settings (.provider other))

/-- What the program prints, and whether it failed. -/
structure Output where
  failed : Bool
  out : String
  err : String

/-- What is said about a use of the pipeline. -/
def describe (p : Parts) (run millis : String) : Outcome → String
  | .analyzed f => f.table ++ "\n\n" ++ f.drawing ++ "\n"
  | .generated plan => plan.text ++ "\n"
  | .executed r =>
    "Run " ++ run ++ " finished " ++ toString r.completed.length ++ " steps in " ++ millis ++ " ms\n" ++
      String.join (r.written.map fun a => "   wrote " ++ a.text ++ "\n") ++
      match r.output? p.revenue.address with
      | some d => d.toJson.pretty ++ "\n"
      | none => ""

/-- The lines at the top. -/
def banner (mode provider : String) (settings : Settings) : String :=
  "🚀 Lineage demo\n" ++ "   Mode: " ++ mode ++ "\n" ++ "   Backend: " ++ provider ++ "\n" ++
    "   Workers: " ++ toString settings.workers ++ "\n\n"

/-- What the program has done: the lines at the top, and what came of the pipeline. -/
structure Use where
  top : String
  outcome : Except Fault (Parts × Outcome)

/-- Uses the pipeline. Settings and the provider are looked at before there is anything to print. -/
def use (processors : Nat) (text? : String → Option String) (args : List String) : Use :=
  let mode := (args.head?.or (text? "LINEAGE_MODE")).getD "analyze"
  let name := (text? "LINEAGE_BACKEND").getD "dataproc"
  let ready : Except Fault (Settings × Parts × Provider) := do
    let settings ← Settings.ofTexts processors text?
    let p ← parts
    return (settings, p, ← provider name settings)
  match ready with
  | .error fault => ⟨"", .error fault⟩
  | .ok (settings, p, provider) =>
    let hook := fun r => Resource.text r "owner" "ingest-team"
    let bench : Workbench Memory :=
      ⟨settings.policy, settings.workers, [], Memory.store, false, .usual, provider,
        ⟨[(p.orders.address, hook)], []⟩⟩
    let memory := (Memory.empty.seed p.orders.address orderRows).seed p.customers.address customerRows
    ⟨banner mode name settings, (bench.dispatch (.ok p.graph) mode memory).outcome.map (p, ·)⟩

/-- What the program prints of a use; the number of a run and its duration come from outside. -/
def Use.output (u : Use) (run millis : String) : Output :=
  match u.outcome with
  | .error fault => ⟨true, u.top, "Error: " ++ fault.form.text ++ "\n"⟩
  | .ok (p, outcome) => ⟨false, u.top ++ describe p run millis outcome, ""⟩

end Provenance.Demo
