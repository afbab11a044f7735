import Provenance.Proofs.Recompiled

/-!
# Names that two steps derive

What a step is called in a plan ends in the digest of the identity of its output, and so does its service
account.  The identity is one text, the name and the location with a bar between them, and nothing marks a
bar that belongs to the name or to the location.  So a part of the name that follows a bar can be read as the
front of the location as well (`Address.Shifted`), and this is the only way in which two addresses share an
identity (`Address.identity_eq_iff`).

* `Naming.step_eq_iff`, `Dataproc.accountId_eq_iff`: names are equal exactly if identities are, and for
  steps what can be read of them.
* `Dataproc.not_exists_plan`: a graph with such a pair of outputs is refused.
* `Provider.accepts_iff_of_clear`: in a graph without such a pair, names derived from steps never collide.
* `Session.names_of_steps`: **all of this for the graphs that a client builds.**
* `Session.exists_shared_names`: two outputs, `a|` at `c` and `a` at `|c`, whose steps share both names.
-/

namespace Provenance

universe u

/-! ## Identities -/

namespace Address

/-- A part of the one name, which follows a bar, stands at the front of the other location. -/
def Shifted (a b : Address) : Prop :=
  ∃ moved, a.name = b.name ++ "|" ++ moved ∧ b.location = moved ++ "|" ++ a.location

/-- One of the two addresses is shifted against the other. -/
def Confused (a b : Address) : Prop := a.Shifted b ∨ b.Shifted a

variable {a b : Address}

theorem Shifted.identity_eq (h : a.Shifted b) : Naming.identity a = Naming.identity b := by
  obtain ⟨moved, hname, hlocation⟩ := h
  unfold Naming.identity
  rw [hname, hlocation]
  simp only [String.append_assoc]

theorem Shifted.bar_mem (h : a.Shifted b) : '|' ∈ a.name.toList := by
  obtain ⟨moved, hname, -⟩ := h
  rw [hname, String.toList_append, String.toList_append]
  simp

/-- Names without bars are never confused. -/
theorem not_confused_of_not_mem (ha : '|' ∉ a.name.toList) (hb : '|' ∉ b.name.toList) : ¬ a.Confused b :=
  fun h => h.elim (fun hab => ha hab.bar_mem) fun hba => hb hba.bar_mem

/-- Of two addresses with one identity the one with the longer name is shifted. -/
theorem eq_or_shifted_of_append {front : List Char} (hname : a.name.toList = b.name.toList ++ front)
    (hlocation : '|' :: b.location.toList = front ++ '|' :: a.location.toList) : a = b ∨ a.Shifted b := by
  obtain ⟨name, location⟩ := a
  obtain ⟨name', location'⟩ := b
  cases front with
  | nil =>
    rw [List.append_nil] at hname
    have hname : name = name' := String.toList_inj.1 hname
    have hlocation : location' = location := String.toList_inj.1 (List.cons.inj hlocation).2
    rw [hname, hlocation]
    exact .inl rfl
  | cons c moved =>
    obtain ⟨rfl, hmoved⟩ := List.cons.inj hlocation
    refine .inr ⟨String.ofList moved, String.toList_inj.1 ?_, String.toList_inj.1 ?_⟩
    · simpa using hname
    · simpa using hmoved

/-- **Two addresses share an identity exactly if they are the same, or confused.** -/
theorem identity_eq_iff : Naming.identity a = Naming.identity b ↔ a = b ∨ a.Confused b := by
  constructor
  · intro h
    have hlist := congrArg String.toList h
    rw [identity_toList, identity_toList, List.append_eq_append_iff] at hlist
    rcases hlist with ⟨front, hname, hlocation⟩ | ⟨front, hname, hlocation⟩
    · exact (eq_or_shifted_of_append hname hlocation).imp Eq.symm .inr
    · exact (eq_or_shifted_of_append hname hlocation).imp_right .inl
  · rintro (rfl | hab | hba)
    · rfl
    · exact hab.identity_eq
    · exact hba.identity_eq.symm

end Address

/-! ## Names -/

/-- What can be read of the name of a step. -/
def Naming.readable (s : Step) (room : ℕ) (sep : Char) : String :=
  sanitize (s.task.name ++ "-" ++ s.output.address.name) (budget room) sep

section

variable {s t : Step}
  (hdigest : Set.InjOn Naming.digest
    {Naming.identity s.output.address, Naming.identity t.output.address})

include hdigest

theorem Naming.digest_identity_eq_iff :
    digest (identity s.output.address) = digest (identity t.output.address) ↔
      identity s.output.address = identity t.output.address :=
  ⟨fun h => hdigest (.inl rfl) (.inr rfl) h, congrArg digest⟩

theorem Naming.step_eq_iff {room : ℕ} {sep : Char} : step s room sep = step t room sep ↔
    identity s.output.address = identity t.output.address ∧ readable s room sep = readable t room sep := by
  constructor
  · intro h
    have hsame := step_digest h
    refine ⟨(digest_identity_eq_iff hdigest).1 hsame, ?_⟩
    unfold step at h
    dsimp only at h
    rw [hsame] at h
    exact (String.append_left_inj _).1 ((String.append_left_inj _).1 h)
  · rintro ⟨hidentity, hreadable⟩
    unfold step
    dsimp only
    unfold readable at hreadable
    rw [hidentity, hreadable]

theorem Dataproc.accountId_eq_iff : accountId s = accountId t ↔
    Naming.identity s.output.address = Naming.identity t.output.address := by
  unfold accountId
  rw [String.append_right_inj, Naming.digest_identity_eq_iff hdigest]

end

/-! ## Resources that are named after steps -/

/-- The resource is made for a step, and has the name of the step or of its account. -/
def Resource.NamedAfter (r : Resource) (s : Step) : Prop :=
  r.origin = s.origin ∧ ∃ lead, r.name = lead ++ Naming.digest (Naming.identity s.output.address)

section

variable {p : Provider} {g : Graph} {s t : Step} {r q : Resource}

/-- What runs a step is named after it. -/
theorem Provider.Orderly.namedAfter_linked (hp : p.Orderly) {made : Runner}
    (hmade : p.runner? g s = some made) : (p.linked g s made).NamedAfter s := by
  obtain ⟨room, hcompute⟩ := hp.compute
  obtain ⟨-, -, hname, -⟩ := hcompute _ _ _ (runner?_eq_some_iff.1 hmade)
  exact ⟨origin_linked, _, name_linked.trans hname⟩

variable (hg : g.Sound) (hdigest : Set.InjOn Naming.digest g.hashed)

include hdigest

/-- Resources of one name that are named after steps are named after steps with one identity. -/
theorem Resource.NamedAfter.identity_eq (hs : s ∈ g.steps) (ht : t ∈ g.steps) (hr : r.NamedAfter s)
    (hq : q.NamedAfter t) (hname : r.name = q.name) :
    Naming.identity s.output.address = Naming.identity t.output.address := by
  obtain ⟨-, lead, hlead⟩ := hr
  obtain ⟨-, lead', hlead'⟩ := hq
  rw [hlead, hlead'] at hname
  exact hdigest (.inr ⟨s, hs, rfl⟩) (.inr ⟨t, ht, rfl⟩) (Naming.digest_eq_of_append hname)

include hg

/-- **A graph with confused outputs is refused**, since the accounts of the two steps have one name and
different origins. -/
theorem Dataproc.not_exists_plan (hassets : (g.assets.map (·.address)).Nodup) (hs : s ∈ g.steps)
    (ht : t ∈ g.steps) (hne : s.output.address ≠ t.output.address)
    (hconfused : s.output.address.Confused t.output.address) (project region : String) :
    ¬ ∃ plan, Plan.ofGraph (Dataproc.provider project region) Hooks.none g = .ok plan := by
  intro hplan
  have haccepts := (Plan.exists_ofGraph_iff (Dataproc.orderly project region) hg hassets hdigest
    (Dataproc.selfContained project region)).1 hplan
  have hmakes : ∀ u ∈ g.steps, (Dataproc.provider project region).Makes g
      ((Dataproc.account project u).madeFor u.origin) := by
    intro u hu
    obtain ⟨rs, hrs⟩ := haccepts.steps u hu
    obtain ⟨made, -, -, hmade, -⟩ := Provider.pieces?_eq_some_iff.1 hrs
    obtain ⟨-, haccess⟩ := haccepts.makes_of_runner? hu hmade
    obtain ⟨compute, -, rfl⟩ := map_eq_ok_iff.1 (Provider.runner?_eq_some_iff.1 hmade)
    exact haccess _ List.mem_cons_self
  have hidentity : Naming.identity t.output.address = Naming.identity s.output.address :=
    (Address.identity_eq_iff.2 (.inr hconfused)).symm
  have hid : ((Dataproc.account project t).madeFor t.origin).id =
      ((Dataproc.account project s).madeFor s.origin).id := by
    have hname : Dataproc.accountId t = Dataproc.accountId s := by
      unfold Dataproc.accountId
      rw [hidentity]
    exact congrArg (Resource.idOf "google_service_account") hname
  have horigin : t.origin = s.origin := haccepts.names _ _ (hmakes s hs) (hmakes t ht) hid
  -- the text and the identity tell an address apart
  exact hne (Address.eq_of_text_of_identity ((String.append_right_inj _).1 horigin) hidentity).symm

/-- **Names that are derived from steps do not collide** in a graph without confused outputs: whether it is
accepted depends on what it asks for and on the other names only. -/
theorem Provider.accepts_iff_of_clear (hp : p.Orderly)
    (hclear : ∀ s ∈ g.steps, ∀ t ∈ g.steps, ¬ s.output.address.Confused t.output.address) :
    p.Accepts g ↔ (∀ a, p.Expresses g a) ∧ (∀ s ∈ g.steps, ∃ rs, p.pieces? g s = some rs) ∧
      ∀ r q, p.Makes g r → p.Makes g q →
        ¬ ((∃ s ∈ g.steps, r.NamedAfter s) ∧ ∃ t ∈ g.steps, q.NamedAfter t) →
          q.id = r.id → q.origin = r.origin := by
  constructor
  · rintro ⟨hstorage, hsteps, hnames⟩
    exact ⟨hstorage, hsteps, fun r q hr hq _ => hnames r q hr hq⟩
  · rintro ⟨hstorage, hsteps, hnames⟩
    refine ⟨hstorage, hsteps, fun r q hr hq hid => ?_⟩
    by_cases hboth : (∃ s ∈ g.steps, r.NamedAfter s) ∧ ∃ t ∈ g.steps, q.NamedAfter t
    · obtain ⟨⟨s, hs, hrs⟩, t, ht, hqt⟩ := hboth
      obtain ⟨_, hgives⟩ := hr.exists_gives
      obtain ⟨_, hgives'⟩ := hq.exists_gives
      obtain ⟨-, hname⟩ := (hgives'.plays hp).of_id (hgives.plays hp) hid
      have hidentity := hqt.identity_eq hdigest ht hs hrs hname
      have haddress := (Address.identity_eq_iff.1 hidentity).resolve_right (hclear t ht s hs)
      rw [hqt.1, hrs.1, hg.eq_of_output_eq ht hs haddress]
    · exact hnames r q hr hq hboth hid

end

namespace Session

variable {α : Type u}

/-- **Names that two steps derive.**  Where digests tell apart the identities of two different outputs, the
names of the steps are equal exactly if the outputs are confused and what can be read of the names is the
same, and the names of the accounts exactly if the outputs are confused.  A graph that a client builds with
two confused outputs is refused by Dataproc.  In one without, the names of what runs the steps and of their
accounts never stand in the way: each of the four providers makes a plan of it exactly if it can express its
storage and its steps and the other resources of one name are of one origin. -/
theorem names_of_steps :
    (∀ t u : Step, t.output.address ≠ u.output.address →
      Set.InjOn Naming.digest
        {Naming.identity t.output.address, Naming.identity u.output.address} →
      (∀ room sep, Naming.step t room sep = Naming.step u room sep ↔
        t.output.address.Confused u.output.address ∧
          Naming.readable t room sep = Naming.readable u room sep) ∧
      (Dataproc.accountId t = Dataproc.accountId u ↔ t.output.address.Confused u.output.address)) ∧
    ∀ (s : Session α) (terminals : List Asset) (g : Graph), s.Reachable →
      (∀ a ∈ terminals, s.Offers (.asset a)) → s.graph terminals = .ok g →
      Set.InjOn Naming.digest g.hashed →
      (∀ t ∈ g.steps, ∀ u ∈ g.steps, t ≠ u → t.output.address ≠ u.output.address) ∧
      (∀ t ∈ g.steps, ∀ u ∈ g.steps, t ≠ u → t.output.address.Confused u.output.address →
        ∀ project region, ¬ ∃ plan,
          Plan.ofGraph (Dataproc.provider project region) Hooks.none g = .ok plan) ∧
      ((∀ t ∈ g.steps, ∀ u ∈ g.steps, ¬ t.output.address.Confused u.output.address) →
        ∀ p : Provider, p.Standard →
          (∀ t ∈ g.steps, ∀ made, p.runner? g t = some made → (p.linked g t made).NamedAfter t) ∧
          ((∃ plan, Plan.ofGraph p Hooks.none g = .ok plan) ↔
            (∀ a, p.Expresses g a) ∧ (∀ t ∈ g.steps, ∃ rs, p.pieces? g t = some rs) ∧
            ∀ r q, p.Makes g r → p.Makes g q →
              ¬ ((∃ t ∈ g.steps, r.NamedAfter t) ∧ ∃ u ∈ g.steps, q.NamedAfter u) →
                q.id = r.id → q.origin = r.origin)) := by
  refine ⟨fun t u hne hdigest => ?_, fun s terminals g hs hterminals hg hdigest => ?_⟩
  · have hidentity : Naming.identity t.output.address = Naming.identity u.output.address ↔
        t.output.address.Confused u.output.address := by
      rw [Address.identity_eq_iff, or_iff_right hne]
    exact ⟨fun room sep => (Naming.step_eq_iff hdigest).trans (and_congr_left' hidentity),
      (Dataproc.accountId_eq_iff hdigest).trans hidentity⟩
  · obtain ⟨hgsound, hassets⟩ := addresses_of_graph hs hterminals hg
    have hne : ∀ t ∈ g.steps, ∀ u ∈ g.steps, t ≠ u → t.output.address ≠ u.output.address :=
      fun t ht u hu hne haddress => hne (hgsound.eq_of_output_eq ht hu haddress)
    refine ⟨hne, fun t ht u hu htu hconfused => ?_, fun hclear p hp => ⟨fun t _ made hmade => ?_, ?_⟩⟩
    · exact Dataproc.not_exists_plan hgsound hdigest hassets ht hu (hne t ht u hu htu) hconfused
    · exact hp.orderly.namedAfter_linked hmade
    · exact (Plan.exists_ofGraph_iff hp.orderly hgsound hassets hdigest hp.selfContained).trans
        (Provider.accepts_iff_of_clear hgsound hdigest hp.orderly hclear)

/-- The outputs `a@b` at `c` and `a` at `b@c` share their text, but no identity: the steps and their accounts
have names of their own, and what stands in the way of a plan is none of those. -/
theorem names_of_steps_crossed :
    (∀ room sep, Naming.step (Crossed.leftStep (Crossed.task "p") 1) room sep ≠
      Naming.step (Crossed.rightStep (Crossed.task "q") 2) room sep) ∧
    Dataproc.accountId (Crossed.leftStep (Crossed.task "p") 1) ≠
      Dataproc.accountId (Crossed.rightStep (Crossed.task "q") 2) ∧
    ∃ plan, Plan.ofGraph Crossed.machine Hooks.none
      (Crossed.leftGraph (Crossed.task "p") (Crossed.task "q")) = .ok plan := by
  obtain ⟨hnames, hgraphs⟩ := names_of_steps (α := Unit)
  have hclear : ¬ Crossed.leftOut.address.Confused Crossed.rightOut.address :=
    Address.not_confused_of_not_mem (by decide) (by decide)
  have hleft : Crossed.leftStep (Crossed.task "p") 1 ∈
      (Crossed.leftGraph (Crossed.task "p") (Crossed.task "q")).steps := .head _
  have hright : Crossed.rightStep (Crossed.task "q") 2 ∈
      (Crossed.leftGraph (Crossed.task "p") (Crossed.task "q")).steps := .tail _ (.head _)
  obtain ⟨hstep, haccount⟩ := hnames (Crossed.leftStep (Crossed.task "p") 1)
    (Crossed.rightStep (Crossed.task "q") 2) (show Crossed.leftOut.address ≠ Crossed.rightOut.address by
      decide) (Crossed.injOn_digest.mono (Set.pair_subset (.inr ⟨_, hleft, rfl⟩) (.inr ⟨_, hright, rfl⟩)))
  obtain ⟨-, -, hplans⟩ := hgraphs _ _ _
    (Crossed.reachable_leftFirst (t := Crossed.task "p") (u := Crossed.task "q") rfl rfl)
    Crossed.offers_leftFirst Crossed.graph_leftFirst Crossed.injOn_digest
  obtain ⟨-, hplan⟩ := hplans (by
    intro t ht u hu
    refine Address.not_confused_of_not_mem ?_ ?_
    · rcases List.mem_pair.1 ht with rfl | rfl <;> decide
    · rcases List.mem_pair.1 hu with rfl | rfl <;> decide) Crossed.machine (.machine _)
  have haccepts := Crossed.accepts
  exact ⟨fun room sep heq => hclear ((hstep room sep).1 heq).1, fun heq => hclear (haccount.1 heq),
    hplan.2 ⟨haccepts.storage, haccepts.steps, fun r q hr hq _ => haccepts.names r q hr hq⟩⟩

/-! ## Two outputs with one identity -/

namespace Barred

open Crossed (stepOf)
open Late (raw)

/-- An output whose name ends in a bar. -/
def leftOut : Asset := ⟨⟨"a|", "c"⟩, none, none, none, 1⟩

/-- An output whose location begins with a bar. -/
def rightOut : Asset := ⟨⟨"a", "|c"⟩, none, none, none, 2⟩

/-- The step into the one output. -/
def left (t : Task) : Step := stepOf t 1 raw leftOut

/-- The step into the other output. -/
def right (t : Task) : Step := stepOf t 2 raw rightOut

/-- The session after some steps, with the handles of the two outputs. -/
def after (steps : List Step) (l r : Asset) : Session Unit :=
  .ofSteps 3 steps [("raw", raw), ("left", l), ("right", r)]

/-- The session after both steps. -/
def session (t : Task) : Session Unit :=
  after [right t, left t] (leftOut.producedBy 1) (rightOut.producedBy 2)

/-- The handles that the graph is built from. -/
def outputs : List Asset := [leftOut.producedBy 1, rightOut.producedBy 2]

/-- The graph behind both outputs. -/
def graph (t : Task) : Graph :=
  ⟨[leftOut.address, rightOut.address], [raw, leftOut, rightOut], [left t, right t],
    (left t).links ++ (right t).links⟩

variable {t : Task}

theorem reachable (ht : t.params = ["src"]) : (session t).Reachable := by
  have hdeclared : (after [] leftOut rightOut).Reachable :=
    .declare "a" "|c" "right" (.declare "a|" "c" "left" (.declare "raw" "lake" "raw" .start))
  have hput : (after [] leftOut rightOut).put ⟨t, [("src", raw)]⟩ leftOut =
      .ok (leftOut.producedBy 1, after [left t] leftOut rightOut) := by
    cbv
  have hput' : (after [left t] (leftOut.producedBy 1) rightOut).put ⟨t, [("src", raw)]⟩ rightOut =
      .ok (rightOut.producedBy 2, after [right t, left t] (leftOut.producedBy 1) rightOut) := by
    cbv
  have hone : (after [left t] (leftOut.producedBy 1) rightOut).Reachable :=
    .put "left" hdeclared (.single (.of_item? "raw" rfl) (transform_of_params ht))
      (.of_item? "left" rfl) hput
  exact .put "right" hone (.single (.of_item? "raw" rfl) (transform_of_params ht))
    (.of_item? "right" rfl) hput'

theorem offers_outputs : ∀ a ∈ outputs, (session t).Offers (.asset a) := by
  intro a ha
  rcases List.mem_pair.1 ha with rfl | rfl
  · exact .of_item? "left" rfl
  · exact .of_item? "right" rfl

theorem graph_eq : (session t).graph outputs = .ok (graph t) := by
  cbv

/-- One text is hashed for the graph. -/
theorem injOn_digest : Set.InjOn Naming.digest (graph t).hashed := by
  have hone : ∀ text ∈ (graph t).hashed, text = "a||c" := by
    rintro text (⟨x, hx, hstorage, rfl⟩ | ⟨s, hs, rfl⟩)
    · simp only [graph, List.mem_cons, List.not_mem_nil, or_false] at hx
      rcases hx with rfl | rfl | rfl <;> exact absurd hstorage (by decide)
    · rcases List.mem_pair.1 hs with rfl | rfl <;> rfl
  exact fun a ha b hb _ => (hone a ha).trans (hone b hb).symm

/-- Both outputs have the identity `a||c`. -/
theorem identity_eq : Naming.identity (left t).output.address = Naming.identity (right t).output.address :=
  Address.identity_eq_iff.2 (.inr (.inl ⟨"", rfl, rfl⟩))

theorem accountId_eq : Dataproc.accountId (left t) = Dataproc.accountId (right t) := by
  unfold Dataproc.accountId
  rw [identity_eq]

/-- A task for a function without a server. -/
def task : Task := { Crossed.task "copy" with target := .serverless "function" }

theorem jobName_eq : Dataproc.jobName (left task) = Dataproc.jobName (right task) := by
  have hreadable : Naming.readable (left task) 50 '-' = Naming.readable (right task) 50 '-' := by
    decide
  unfold Naming.readable at hreadable
  unfold Dataproc.jobName Naming.step
  dsimp only
  rw [identity_eq, hreadable]

/-- The fault that a run ends in. -/
theorem ofGraph_eq : Plan.ofGraph (Dataproc.provider "p" "us-central1") Hooks.none (graph task) =
    .error (.compilation "step:a@|c"
      (.uniqueName "google_dataproc_batch.copy-a-774c1efd" "step:a|@c") "dataproc") := by
  have hfault : (match Plan.ofGraph (Dataproc.provider "p" "us-central1") Hooks.none (graph task) with
      | .ok _ => none
      | .error fault => some fault) = some (.compilation "step:a@|c"
        (.uniqueName "google_dataproc_batch.copy-a-774c1efd" "step:a|@c") "dataproc") := by
    decide +kernel
  split at hfault
  · cases hfault
  · rename_i fault hrun
    rw [hrun, Option.some.inj hfault]

end Barred

/-- **Two steps can share their names.**  The outputs are different and digests tell apart whatever is hashed
for the graph, but there is one identity only; so the two jobs have one name, the two accounts have one name,
and Dataproc refuses the graph for it. -/
theorem exists_shared_names :
    let t := Barred.task
    (Barred.session t).Reachable ∧ (∀ a ∈ Barred.outputs, (Barred.session t).Offers (.asset a)) ∧
      (Barred.session t).graph Barred.outputs = .ok (Barred.graph t) ∧
      Set.InjOn Naming.digest (Barred.graph t).hashed ∧
      (Barred.graph t).steps = [Barred.left t, Barred.right t] ∧
      (Barred.left t).output.address ≠ (Barred.right t).output.address ∧
      Dataproc.jobName (Barred.left t) = Dataproc.jobName (Barred.right t) ∧
      Dataproc.accountId (Barred.left t) = Dataproc.accountId (Barred.right t) ∧
      Plan.ofGraph (Dataproc.provider "p" "us-central1") Hooks.none (Barred.graph t) =
        .error (.compilation "step:a@|c"
          (.uniqueName "google_dataproc_batch.copy-a-774c1efd" "step:a|@c") "dataproc") := by
  intro t
  exact ⟨Barred.reachable rfl, Barred.offers_outputs, Barred.graph_eq, Barred.injOn_digest, rfl, by decide,
    Barred.jobName_eq, Barred.accountId_eq, Barred.ofGraph_eq⟩

end Session

end Provenance
