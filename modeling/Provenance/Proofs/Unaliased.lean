import Provenance.Proofs.Aliases
import Provenance.Proofs.Producers

/-!
# One declaration for an address

Where all handles to an address come from one declaration, there is nothing to dispute: a handle counts as
produced by the last step of its declaration, whatever step it comes from itself, as long as that last step
is alive.  So a consumer that was declared before an overwrite reads what the overwrite gives.

* `Catalog.IsLast`: the step that was declared last into its declaration.
* `Catalog.Sound.producer?_eq_some_iff`: **the producer of a handle is the last step of its declaration**,
  where last steps are alive.  The lineage of the handle does not enter.
* `Session.Unaliased`: handles to one address share a declaration; so they name one step, and the survey
  meets a single contender for each address (`agree_of_unaliased`).
* `Session.last_of_graph`: no conflict is ever reported, and the producer of every address in the graph is
  the step that was declared last into it.  `Overwritten` is a session whose report was declared from the
  handle that an overwrite then left behind.
-/

namespace Provenance

universe u

/-! ## 1.  Last steps -/

namespace Catalog

variable {home : ℕ → Address} {c : Catalog} {alive : List StepId} {a b : Asset} {s t : Step}

/-- A step that was declared last into its declaration. -/
structure IsLast (c : Catalog) (t : Step) : Prop where
  mem : t ∈ c.steps
  le : ∀ u ∈ c.steps, u.output.declaration = t.output.declaration → u.id ≤ t.id

/-- A declaration with a step has a last one, which is remembered. -/
theorem Listed.exists_isLast (h : c.Listed) (ht : t ∈ c.steps) :
    ∃ l, c.IsLast l ∧ l.output.declaration = t.output.declaration ∧
      c.latest.lookup t.output.declaration = some l.id := by
  obtain ⟨l, hl, hdecl, -, hlookup⟩ := h.exists_latest ht
  refine ⟨l, ⟨hl, fun u hu hudecl => ?_⟩, hdecl, hlookup⟩
  obtain ⟨m, -, -, hle, hm⟩ := h.exists_latest hu
  rw [hudecl, hdecl, hlookup] at hm
  exact Option.some.inj hm ▸ hle

/-- A declaration has one last step at most. -/
theorem Listed.eq_of_isLast (h : c.Listed) (hs : c.IsLast s) (ht : c.IsLast t)
    (hdecl : s.output.declaration = t.output.declaration) : s = t := by
  have hid : s.id = t.id := Nat.le_antisymm (ht.le s hs.mem hdecl) (hs.le t ht.mem hdecl.symm)
  have hstep : c.step? s.id = some s := h.step?_eq_some_iff.2 ⟨hs.mem, rfl⟩
  rw [hid, h.step?_eq_some_iff.2 ⟨ht.mem, rfl⟩] at hstep
  exact (Option.some.inj hstep).symm

/-- **The producer of a handle is the last step of its declaration**, where last steps are alive. -/
theorem Sound.producer?_eq_some_iff (hc : c.Sound home) (hlisted : c.Listed)
    (halive : ∀ t, c.IsLast t → t.id ∈ alive) (ha : c.Knows home a) :
    c.producer? alive a = some t ↔ c.IsLast t ∧ t.output.declaration = a.declaration := by
  have hlast : ∀ l, c.IsLast l → l.output.declaration = a.declaration →
      c.producer? alive a = some l := by
    intro l hl hdecl
    obtain ⟨m, hm, hmdecl, hlookup⟩ := hlisted.exists_isLast hl.mem
    obtain rfl := hlisted.eq_of_isLast hm hl hmdecl
    unfold producer?
    rw [← hdecl, hlookup, Option.filter_some, if_pos (decide_eq_true (halive m hm)), Option.some_or]
    exact hlisted.step?_eq_some_iff.2 ⟨hm.mem, rfl⟩
  constructor
  · intro ht
    have hdecl := hc.declaration_of_producer? ha ht
    obtain ⟨l, hl, hldecl, -⟩ := hlisted.exists_isLast (mem_of_producer? ht)
    have heq := hlast l hl (hldecl.trans hdecl)
    rw [ht] at heq
    obtain rfl := Option.some.inj heq
    exact ⟨hl, hdecl⟩
  · rintro ⟨ht, hdecl⟩
    exact hlast t ht hdecl

end Catalog

/-! ## 2.  Handles that share a declaration -/

namespace Session

variable {α : Type u} {s : Session α} {terminals : List Asset} {a b : Asset}

/-- The handles that occur in a session: those that a client can get hold of, and the inputs and outputs
of all steps. -/
inductive Occurs (s : Session α) : Asset → Prop
  | offered {a : Asset} : s.Offers (.asset a) → Occurs s a
  | input {t : Step} {i : String × Asset} : t ∈ s.catalog.steps → i ∈ t.inputs → Occurs s i.2
  | output {t : Step} : t ∈ s.catalog.steps → Occurs s t.output

/-- Handles to one address share a declaration. -/
def Unaliased (s : Session α) : Prop :=
  ∀ a b, s.Occurs a → s.Occurs b → a.address = b.address → a.declaration = b.declaration

theorem Occurs.known {home : ℕ → Address} (hs : s.Sound home) (h : s.Occurs a) :
    s.catalog.Knows home a := by
  cases h with
  | offered ha => exact ha.known hs
  | input ht hi => exact hs.catalog.inputs _ ht _ hi
  | output ht => exact hs.catalog.output _ ht

/-- A session whose declarations are of different addresses is unaliased. -/
theorem Sound.unaliased {home : ℕ → Address} (hs : s.Sound home)
    (hhome : ∀ d < s.catalog.declarations, ∀ e < s.catalog.declarations, home d = home e → d = e) :
    s.Unaliased := by
  intro a b ha hb haddress
  have hka := ha.known hs
  have hkb := hb.known hs
  refine hhome _ hka.declared _ hkb.declared ?_
  rw [← hka.address, ← hkb.address, haddress]

/-- What a survey can meet occurs in the session. -/
theorem Occurs.of_met (hterminals : ∀ a ∈ terminals, s.Offers (.asset a)) {alive : List StepId}
    (h : Survey.Met (s.catalog.producer? alive) terminals a) : s.Occurs a := by
  induction h with
  | terminal ha => exact .offered (hterminals _ ha)
  | input _ hs hi _ => exact .input (Catalog.mem_of_producer? hs) hi

/-! ## 3.  Graphs of handles that agree -/

section

variable (hs : s.Reachable) (hterminals : ∀ a ∈ terminals, s.Offers (.asset a))
  (hagree : ∀ a b, Survey.Met (s.named terminals) terminals a →
    Survey.Met (s.named terminals) terminals b → a.address = b.address →
      s.named terminals a = s.named terminals b)

include hs hterminals hagree

/-- Where handles to one address name one step, a graph is refused for a cycle only. -/
theorem exists_cycle_of_agree {fault : Fault} (h : s.graph terminals = .error fault) :
    ∃ path, fault = .cycle path := by
  obtain ⟨home, hsound, hknown⟩ := hs.exists_knows hterminals
  obtain ⟨u, hu⟩ := (Survey.decided_of_agree hagree).exists_follow
  have hv := Survey.ofTerminals_eq_ok_iff.2 ⟨u, hu, rfl⟩
  rcases Graph.exists_ofTerminals_or_cycle hsound.catalog hknown hv with ⟨g, hg⟩ | ⟨path, hpath⟩
  · exact absurd (hg.symm.trans h) (by simp)
  · exact ⟨path, (Except.error.inj (hpath.symm.trans h)).symm⟩

variable {g : Graph} (h : s.graph terminals = .ok g)

include h

/-- The producers of the graph are then the steps that are named by handles which are sure to come up. -/
theorem producer?_iff_of_agree {x : Address} {n : Step} : g.producer? x = some n ↔
    ∃ a, Survey.Sure (s.named terminals) terminals a ∧ a.address = x ∧ s.named terminals a = some n := by
  obtain ⟨home, hsound, hknown⟩ := hs.exists_knows hterminals
  have hdecided := Survey.decided_of_agree hagree
  obtain ⟨u, hu⟩ := hdecided.exists_follow
  have hv := Survey.ofTerminals_eq_ok_iff.2 ⟨u, hu, rfl⟩
  rw [Graph.producer?_eq_some_iff_lookup hsound.catalog hknown hv h, hdecided.lookup_prune_iff hu]
  constructor
  · rintro ⟨⟨a, ha, rfl⟩, hnewest⟩
    exact ⟨a, ha, rfl, (Survey.newest_iff_of_agree hagree ha.met).1 hnewest⟩
  · rintro ⟨a, ha, rfl, hname⟩
    exact ⟨⟨a, ha, rfl⟩, (Survey.newest_iff_of_agree hagree ha.met).2 hname⟩

/-- Every asset of the graph stands for a handle that is sure to come up. -/
theorem exists_sure_of_mem_assets {x : Asset} (hx : x ∈ g.assets) :
    ∃ a, Survey.Sure (s.named terminals) terminals a ∧ a.address = x.address := by
  obtain ⟨home, hsound, hknown⟩ := hs.exists_knows hterminals
  have hg := Graph.sound_of_ofTerminals hsound.catalog hknown h
  have htouched := ((Graph.addresses_of_ofTerminals hsound.catalog hknown h).2 x.address).1
    (List.mem_map.2 ⟨x, hx, rfl⟩)
  rcases List.mem_append.1 htouched with hstep | hterminal
  · obtain ⟨t, ht, hxt⟩ := List.mem_flatMap.1 hstep
    obtain ⟨a, ha, haddress, hname⟩ :=
      (producer?_iff_of_agree hs hterminals hagree h).1 (hg.producer?_output ht)
    rcases List.mem_append.1 hxt with hinput | houtput
    · obtain ⟨i, hi, hix⟩ := List.mem_map.1 hinput
      exact ⟨i.2, ha.input hname ((Survey.newest_iff_of_agree hagree ha.met).2 hname) hi, hix⟩
    · exact ⟨a, ha, haddress.trans (List.mem_singleton.1 houtput).symm⟩
  · obtain ⟨t, ht, htx⟩ := List.mem_map.1 hterminal
    exact ⟨t, .terminal ht, htx⟩

/-- The producer of an asset is what a handle to its address names. -/
theorem exists_producer?_eq_named {x : Asset} (hx : x ∈ g.assets) :
    ∃ a, Survey.Met (s.named terminals) terminals a ∧ a.address = x.address ∧
      g.producer? x.address = s.named terminals a := by
  obtain ⟨a, ha, haddress⟩ := exists_sure_of_mem_assets hs hterminals hagree h hx
  refine ⟨a, ha.met, haddress, ?_⟩
  ext n
  rw [producer?_iff_of_agree hs hterminals hagree h]
  constructor
  · rintro ⟨b, hb, hbaddress, hname⟩
    rwa [hagree a b ha.met hb.met (haddress.trans hbaddress.symm)]
  · exact fun hname => ⟨a, ha, haddress, hname⟩

end

/-! ## 4.  Graphs of unaliased sessions -/

section

variable (hs : s.Reachable) (hsingle : s.Unaliased)
  (halive : ∀ t, s.catalog.IsLast t → t.id ∈ s.alive [])
  (hterminals : ∀ a ∈ terminals, s.Offers (.asset a))

include hs hsingle halive hterminals

omit halive hterminals in
/-- A step writes to the address of a handle exactly if it was declared into the declaration of the handle. -/
theorem output_address_iff (ha : s.Occurs a) {u : Step} (hu : u ∈ s.catalog.steps) :
    u.output.address = a.address ↔ u.output.declaration = a.declaration := by
  obtain ⟨home, hsound⟩ := hs.sound
  refine ⟨hsingle _ _ (.output hu) ha, fun hdecl => ?_⟩
  rw [(hsound.catalog.output u hu).address, (ha.known hsound).address, hdecl]

omit hsingle in
/-- A handle that a survey can meet names the last step of its declaration. -/
theorem named_eq_some_iff_isLast (ha : Survey.Met (s.named terminals) terminals a) {t : Step} :
    s.named terminals a = some t ↔ s.catalog.IsLast t ∧ t.output.declaration = a.declaration := by
  obtain ⟨home, hsound⟩ := hs.sound
  refine hsound.catalog.producer?_eq_some_iff hs.listed (fun t ht => ?_)
    ((Occurs.of_met hterminals ha).known hsound)
  exact hs.listed.alive_subset
    (fun _ hr => hs.listed.mem_alive_of_mem (List.mem_append_right _ hr)) (halive t ht)

/-- That is the step that was declared last into its address. -/
theorem named_eq_some_iff (ha : Survey.Met (s.named terminals) terminals a) {t : Step} :
    s.named terminals a = some t ↔ t ∈ s.catalog.steps ∧ t.output.address = a.address ∧
      ∀ u ∈ s.catalog.steps, u.output.address = a.address → u.id ≤ t.id := by
  have hinto := fun u => output_address_iff hs hsingle (Occurs.of_met hterminals ha) (u := u)
  rw [named_eq_some_iff_isLast hs halive hterminals ha]
  constructor
  · rintro ⟨ht, hdecl⟩
    refine ⟨ht.mem, (hinto t ht.mem).2 hdecl, fun u hu hout => ht.le u hu ?_⟩
    exact ((hinto u hu).1 hout).trans hdecl.symm
  · rintro ⟨ht, hout, hle⟩
    have hdecl := (hinto t ht).1 hout
    exact ⟨⟨ht, fun u hu hudecl => hle u hu ((hinto u hu).2 (hudecl.trans hdecl))⟩, hdecl⟩

/-- It names none exactly if no step was declared into its address. -/
theorem named_eq_none_iff (ha : Survey.Met (s.named terminals) terminals a) :
    s.named terminals a = none ↔ ∀ t ∈ s.catalog.steps, t.output.address ≠ a.address := by
  constructor
  · intro hnone t ht hout
    have hdecl := (output_address_iff hs hsingle (Occurs.of_met hterminals ha) ht).1 hout
    obtain ⟨l, hl, hldecl, -⟩ := hs.listed.exists_isLast ht
    have hname := (named_eq_some_iff_isLast hs halive hterminals ha).2 ⟨hl, hldecl.trans hdecl⟩
    exact absurd (hnone.symm.trans hname) (by simp)
  · refine fun hnone => Option.eq_none_iff_forall_ne_some.2 fun t hname => ?_
    obtain ⟨ht, hout, -⟩ := (named_eq_some_iff hs hsingle halive hterminals ha).1 hname
    exact hnone t ht hout

/-- Handles to one address that a survey can meet name one step. -/
theorem agree_of_unaliased : ∀ a b, Survey.Met (s.named terminals) terminals a →
    Survey.Met (s.named terminals) terminals b → a.address = b.address →
      s.named terminals a = s.named terminals b := by
  intro a b ha hb haddress
  ext t
  rw [named_eq_some_iff hs hsingle halive hterminals ha,
    named_eq_some_iff hs hsingle halive hterminals hb, haddress]

/-- **The producer of an address is the step that was declared last into it.**  In a session whose handles
to one address share a declaration, and whose last steps are alive, a graph is refused for a cycle only.
The producer of each address that it shows is the newest step into that address, and there is none exactly
if no step was declared into it, whichever handles the terminals and the inputs are. -/
theorem last_of_graph :
    (∀ fault, s.graph terminals = .error fault → ∃ path, fault = .cycle path) ∧
    ∀ g, s.graph terminals = .ok g → ∀ x ∈ g.assets,
      (∀ t, g.producer? x.address = some t ↔ t ∈ s.catalog.steps ∧ t.output.address = x.address ∧
        ∀ u ∈ s.catalog.steps, u.output.address = x.address → u.id ≤ t.id) ∧
      (g.producer? x.address = none ↔ ∀ t ∈ s.catalog.steps, t.output.address ≠ x.address) := by
  have hagree := agree_of_unaliased hs hsingle halive hterminals
  refine ⟨fun fault => exists_cycle_of_agree hs hterminals hagree, fun g hg x hx => ?_⟩
  obtain ⟨a, ha, haddress, hproducer⟩ := exists_producer?_eq_named hs hterminals hagree hg hx
  rw [hproducer, ← haddress]
  exact ⟨fun t => named_eq_some_iff hs hsingle halive hterminals ha,
    named_eq_none_iff hs hsingle halive hterminals ha⟩

end

/-! ## 5.  A session with an overwrite -/

namespace Overwritten

open Late (raw clean report)

/-- The first step into the clean data. -/
def tidy (t : Task) : Step := ⟨1, t, [("x", raw)], clean, false⟩

/-- The step that reads what the first one gives. -/
def tell (t : Task) : Step := ⟨2, t, [("x", clean.producedBy 1)], report, false⟩

/-- The step that replaces the first one. -/
def retidy (t : Task) : Step := ⟨3, t, [("x", raw)], clean, true⟩

/-- The session after some of the steps, whose handles are kept under further names. -/
def after (steps : List Step) (handles : List (String × Asset)) : Session Unit :=
  .ofSteps 3 steps ([("raw", raw), ("clean", clean), ("report", report)] ++ handles)

/-- The session after all steps. -/
def session (t : Task) : Session Unit :=
  after [retidy t, tell t, tidy t]
    [("1", clean.producedBy 1), ("2", report.producedBy 2), ("3", clean.producedBy 3)]

/-- The report, and clean data by the handle from the first step and by the one from no step. -/
def handles : List Asset := [report.producedBy 2, clean.producedBy 1, clean]

/-- The graph behind the terminals: the report is made from what the last step gives. -/
def graph (t : Task) : Graph :=
  ⟨[report.address, clean.address, clean.address], [raw, clean, report], [retidy t, tell t],
    (retidy t).links ++ (tell t).links⟩

theorem reachable {t : Task} (ht : t.params = ["x"]) : (session t).Reachable := by
  have hdraft : ∀ a : Asset, a.transform t = .ok ⟨t, [("x", a)]⟩ := fun a => transform_of_params ht
  have hdeclared : (after [] []).Reachable :=
    .declare "report" "lake" "report" (.declare "clean" "lake" "clean"
      (.declare "raw" "lake" "raw" .start))
  have htidy : (after [] []).put ⟨t, [("x", raw)]⟩ clean =
      .ok (clean.producedBy 1, after [tidy t] []) := by
    cbv
  have htidied : (after [tidy t] [("1", clean.producedBy 1)]).Reachable :=
    .put "1" hdeclared (.single (.of_item? "raw" rfl) (hdraft _)) (.of_item? "clean" rfl) htidy
  have htell : (after [tidy t] [("1", clean.producedBy 1)]).put ⟨t, [("x", clean.producedBy 1)]⟩ report =
      .ok (report.producedBy 2, after [tell t, tidy t] [("1", clean.producedBy 1)]) := by
    cbv
  have htold : (after [tell t, tidy t]
      [("1", clean.producedBy 1), ("2", report.producedBy 2)]).Reachable :=
    .put "2" htidied (.single (.of_item? "1" rfl) (hdraft _)) (.of_item? "report" rfl) htell
  exact .replace "3" htold (.single (.of_item? "raw" rfl) (hdraft _)) (.of_item? "clean" rfl)

section

variable (t : Task)

theorem offers : ∀ a ∈ handles, (session t).Offers (.asset a) := by
  intro a ha
  simp only [handles, List.mem_cons, List.not_mem_nil, or_false] at ha
  rcases ha with rfl | rfl | rfl
  · exact .of_item? "2" rfl
  · exact .of_item? "1" rfl
  · exact .of_item? "clean" rfl

/-- The three declarations are of three addresses. -/
theorem unaliased {home : ℕ → Address} (hs : (session t).Sound home) : (session t).Unaliased := by
  have hhome : ∀ d < 3, home d = ([raw, clean, report].map (·.address)).getD d default := by
    intro d hd
    interval_cases d
    · exact (Offers.of_item? (s := session t) "raw" rfl |>.known hs).address.symm
    · exact (Offers.of_item? (s := session t) "clean" rfl |>.known hs).address.symm
    · exact (Offers.of_item? (s := session t) "report" rfl |>.known hs).address.symm
  refine hs.unaliased fun d hd e he heq => ?_
  rw [hhome d hd, hhome e he] at heq
  have hdistinct : ∀ d < 3, ∀ e < 3, ([raw, clean, report].map (·.address)).getD d default =
      ([raw, clean, report].map (·.address)).getD e default → d = e := by decide
  exact hdistinct d hd e he heq

/-- The last step into the report and the last one into the clean data are alive. -/
theorem alive {l : Step} (hl : (session t).catalog.IsLast l) : l.id ∈ (session t).alive [] := by
  have halive : (session t).alive [] = [1, 1, 2, 3] := by
    cbv
  have hmem : l ∈ [retidy t, tell t, tidy t] := hl.mem
  rw [halive]
  simp only [List.mem_cons, List.not_mem_nil, or_false] at hmem
  rcases hmem with rfl | rfl | rfl <;> simp [retidy, tell, tidy]

theorem graph_eq : (session t).graph handles = .ok (graph t) := by
  cbv

end

end Overwritten

/-- The step that replaces produces the clean data, although the report reads from the first one. -/
theorem last_of_graph_overwritten :
    (Overwritten.session Late.copy).graph Overwritten.handles = .ok (Overwritten.graph Late.copy) ∧
    (Overwritten.graph Late.copy).producer? Late.clean.address = some (Overwritten.retidy Late.copy) := by
  have hs : (Overwritten.session Late.copy).Reachable := Overwritten.reachable rfl
  obtain ⟨home, hsound⟩ := hs.sound
  have hg := Overwritten.graph_eq Late.copy
  obtain ⟨-, hlast⟩ := last_of_graph hs (Overwritten.unaliased _ hsound)
    (fun _ => Overwritten.alive _) (Overwritten.offers _)
  obtain ⟨hproducer, -⟩ := hlast _ hg Late.clean (.tail _ (.head _))
  refine ⟨hg, (hproducer _).2 ⟨.head _, rfl, fun u hu hout => ?_⟩⟩
  have hmem : u ∈ [Overwritten.retidy Late.copy, Overwritten.tell Late.copy,
    Overwritten.tidy Late.copy] := hu
  simp only [List.mem_cons, List.not_mem_nil, or_false] at hmem
  rcases hmem with rfl | rfl | rfl
  · exact Nat.le_refl _
  · exact absurd hout (by decide)
  · exact Nat.le_of_ble_eq_true rfl

end Session

end Provenance
