import Provenance.Graph.Drawing
import Provenance.Proofs.Volumes

/-!
# What a drawing shows

A drawing leaves an arrow out where the graph has no asset at the end of it.  In a graph that is built no
arrow is left out: everything that a step touches is there, once (`Graph.Complete`).  So the drawing of a
step has one arrow for every parameter, parameters that are given the same data included, and one for the
output, and whoever has the drawing and the list of the assets can read off what the steps do.

* `Drawing.nodup_ids`: the keys tell the boxes apart.
* `Drawing.stepArrows_eq`: the arrows of a step, none left out.
* `Drawing.accounts_ofGraph`: **the steps are read back from the drawing.**
* `Session.drawing_of_graph`: **all of this for every graph that a client builds.**
-/

namespace Provenance

universe u v w

/-! ## Lists whose elements depend on their places -/

section

variable {α : Type u} {β : Type v} {γ : Type w}

theorem map_mapIdx (f : ℕ → α → β) (g : β → γ) (l : List α) :
    (l.mapIdx f).map g = l.mapIdx fun k x => g (f k x) :=
  List.ext_getElem (by simp) fun k hk hk' => by simp

theorem mapIdx_of_place (f : ℕ → β) (l : List α) :
    l.mapIdx (fun k _ => f k) = (List.range l.length).map f :=
  List.ext_getElem (by simp) fun k hk hk' => by simp

theorem mapIdx_of_map (f : α → β) (l : List α) : l.mapIdx (fun _ x => f x) = l.map f :=
  List.ext_getElem (by simp) fun k hk hk' => by simp

/-- Where only one place contributes, a list put together from contributions is that one. -/
theorem flatten_mapIdx_of_ne {f : ℕ → α → List β} {l : List α} {k : ℕ} {x : α} (hx : l[k]? = some x)
    (h : ∀ j y, j ≠ k → f j y = []) : (l.mapIdx f).flatten = f k x := by
  induction l generalizing k f with
  | nil => simp at hx
  | cons y l ih =>
    rw [List.mapIdx_cons, List.flatten_cons]
    cases k with
    | zero =>
      obtain rfl : y = x := by simpa using hx
      have hrest : (l.mapIdx fun j => f (j + 1)).flatten = [] := by
        refine List.flatten_eq_nil_iff.2 fun part hpart => ?_
        obtain ⟨j, hj, rfl⟩ := List.mem_mapIdx.1 hpart
        exact h (j + 1) _ (Nat.succ_ne_zero j)
      rw [hrest, List.append_nil]
    | succ k =>
      rw [h 0 y (Nat.succ_ne_zero k).symm, List.nil_append]
      exact ih (by simpa using hx) fun j z hj => h (j + 1) z (fun hsame => hj (Nat.succ.inj hsame))

end

/-! ## Places of assets -/

namespace Graph

variable {g : Graph} {a : Address}

/-- The place of an address in the list of assets. -/
def place (g : Graph) (a : Address) : ℕ := g.assets.findIdx (·.address == a)

/-- Whatever a step touches has an asset, and no other one has its address. -/
structure Complete (g : Graph) : Prop where
  addresses : (g.assets.map (·.address)).Nodup
  touched : ∀ s ∈ g.steps, ∀ a ∈ s.touched, a ∈ g.assets.map (·.address)

theorem exists_getElem?_place (ha : a ∈ g.assets.map (·.address)) :
    ∃ x, g.assets[g.place a]? = some x ∧ x.address = a := by
  obtain ⟨x, hx, rfl⟩ := List.mem_map.1 ha
  have hlt : g.place x.address < g.assets.length :=
    List.findIdx_lt_length_of_exists ⟨x, hx, beq_self_eq_true x.address⟩
  refine ⟨_, List.getElem?_eq_getElem hlt, ?_⟩
  exact eq_of_beq (List.findIdx_getElem (w := hlt))

end Graph

namespace Drawing

variable {g : Graph} {s : Step} {k : ℕ}

/-! ## Keys -/

theorem assetKey_inj {j k : ℕ} : assetKey j = assetKey k ↔ j = k := by
  unfold assetKey
  rw [String.append_right_inj, Nat.toString_eq_repr, Nat.toString_eq_repr, Nat.repr_inj]

theorem stepKey_inj {j k : ℕ} : stepKey j = stepKey k ↔ j = k := by
  unfold stepKey
  rw [String.append_right_inj, Nat.toString_eq_repr, Nat.toString_eq_repr, Nat.repr_inj]

theorem assetKey_ne_stepKey {j k : ℕ} : assetKey j ≠ stepKey k := by
  intro h
  have hhead := congrArg (fun key : String => key.toList.head?) h
  simp [assetKey, stepKey] at hhead

theorem keyOf?_of_mem {a : Address} (ha : a ∈ g.assets.map (·.address)) :
    keyOf? g a = some (assetKey (g.place a)) := by
  obtain ⟨x, hx, haddress⟩ := Graph.exists_getElem?_place ha
  have hfound : g.assets.findIdx? (·.address == a) = some (g.place a) :=
    List.findIdx?_eq_some_iff_findIdx_eq.2 ⟨(List.getElem?_eq_some_iff.1 hx).1, rfl⟩
  unfold keyOf?
  rw [hfound, Option.map_some]

/-! ## Boxes -/

theorem boxes_ofGraph (g : Graph) : (ofGraph g).boxes =
    g.assets.mapIdx (fun k x => assetBox x k) ++ g.steps.mapIdx (fun k s => stepBox s k) := rfl

/-- The boxes of assets are those of the assets, in their order. -/
theorem storageBoxes_ofGraph (g : Graph) :
    (ofGraph g).boxes.filter (·.shape = .storage) = g.assets.mapIdx fun k x => assetBox x k := by
  rw [boxes_ofGraph, List.filter_append]
  have hassets : (g.assets.mapIdx fun k x => assetBox x k).filter (·.shape = .storage) =
      g.assets.mapIdx fun k x => assetBox x k := by
    refine List.filter_eq_self.2 fun b hb => ?_
    obtain ⟨k, hk, rfl⟩ := List.mem_mapIdx.1 hb
    rfl
  have hsteps : (g.steps.mapIdx fun k s => stepBox s k).filter (·.shape = .storage) = [] := by
    refine List.filter_eq_nil_iff.2 fun b hb => ?_
    obtain ⟨k, hk, rfl⟩ := List.mem_mapIdx.1 hb
    simp [stepBox]
  rw [hassets, hsteps, List.append_nil]

/-- The boxes of steps are those of the steps, in the order of execution. -/
theorem stepBoxes_ofGraph (g : Graph) :
    (ofGraph g).boxes.filter (·.shape = .step) = g.steps.mapIdx fun k s => stepBox s k := by
  rw [boxes_ofGraph, List.filter_append]
  have hassets : (g.assets.mapIdx fun k x => assetBox x k).filter (·.shape = .step) = [] := by
    refine List.filter_eq_nil_iff.2 fun b hb => ?_
    obtain ⟨k, hk, rfl⟩ := List.mem_mapIdx.1 hb
    simp [assetBox]
  have hsteps : (g.steps.mapIdx fun k s => stepBox s k).filter (·.shape = .step) =
      g.steps.mapIdx fun k s => stepBox s k := by
    refine List.filter_eq_self.2 fun b hb => ?_
    obtain ⟨k, hk, rfl⟩ := List.mem_mapIdx.1 hb
    rfl
  rw [hassets, hsteps, List.nil_append]

/-- **Keys tell boxes apart.** -/
theorem nodup_ids (g : Graph) : ((ofGraph g).boxes.map (·.id)).Nodup := by
  have hassets : (g.assets.mapIdx fun k x => assetBox x k).map (·.id) =
      (List.range g.assets.length).map assetKey :=
    (map_mapIdx _ _ _).trans (mapIdx_of_place assetKey g.assets)
  have hsteps : (g.steps.mapIdx fun k s => stepBox s k).map (·.id) =
      (List.range g.steps.length).map stepKey :=
    (map_mapIdx _ _ _).trans (mapIdx_of_place stepKey g.steps)
  rw [boxes_ofGraph, List.map_append, hassets, hsteps, List.nodup_append]
  refine ⟨List.nodup_range.map fun j k => assetKey_inj.1, List.nodup_range.map fun j k => stepKey_inj.1, ?_⟩
  intro key hkey key' hkey' hsame
  obtain ⟨j, -, rfl⟩ := List.mem_map.1 hkey
  obtain ⟨k, -, rfl⟩ := List.mem_map.1 hkey'
  exact assetKey_ne_stepKey hsame

/-! ## Arrows -/

/-- The arrows of a step where each end has an asset: one for each parameter, from the data that it is given,
and one to the output. -/
def wholeArrows (g : Graph) (s : Step) (position : ℕ) : List Arrow :=
  s.inputs.map (fun i => ⟨assetKey (g.place i.2.address), stepKey position, some i.1⟩) ++
    [⟨stepKey position, assetKey (g.place s.output.address), none⟩]

/-- **No arrow is left out** where everything that the step touches is there. -/
theorem stepArrows_eq (h : ∀ a ∈ s.touched, a ∈ g.assets.map (·.address)) (position : ℕ) :
    stepArrows g s position = wholeArrows g s position := by
  have hinput : ∀ i ∈ s.inputs, keyOf? g i.2.address = some (assetKey (g.place i.2.address)) :=
    fun i hi => keyOf?_of_mem (h _ (List.mem_append_left _ (List.mem_map.2 ⟨i, hi, rfl⟩)))
  have houtput : keyOf? g s.output.address = some (assetKey (g.place s.output.address)) :=
    keyOf?_of_mem (h _ (List.mem_append_right _ (List.mem_singleton_self _)))
  unfold stepArrows wholeArrows
  rw [houtput]
  congr 1
  rw [← List.filterMap_eq_map]
  refine List.filterMap_congr fun i hi => ?_
  rw [hinput i hi]
  rfl

theorem arrows_ofGraph (hg : g.Complete) :
    (ofGraph g).arrows = (g.steps.mapIdx fun k s => wholeArrows g s k).flatten := by
  have hsteps : (g.steps.mapIdx fun k s => stepArrows g s k) =
      g.steps.mapIdx fun k s => wholeArrows g s k := by
    refine List.ext_getElem (by simp) fun k hk hk' => ?_
    rw [List.getElem_mapIdx, List.getElem_mapIdx]
    exact stepArrows_eq (hg.touched _ (List.getElem_mem _)) k
  exact congrArg List.flatten hsteps

/-- A step has an arrow for each input, and one more. -/
theorem length_arrows (hg : g.Complete) :
    (ofGraph g).arrows.length = (g.steps.map fun s => s.inputs.length + 1).sum := by
  rw [arrows_ofGraph hg, List.length_flatten, map_mapIdx]
  congr 1
  refine List.ext_getElem (by simp) fun k hk hk' => ?_
  simp [wholeArrows]

/-! ## Reading a drawing -/

/-- The address of the asset that a key stands for, by the list of the assets. -/
def address? (d : Drawing) (assets : List Asset) (key : String) : Option Address :=
  (d.boxes.findIdx? (·.id == key)).bind fun k => (assets[k]?).map (·.address)

/-- What is told of a step: its task, what it gives to which parameter, and where its data goes. -/
structure Account where
  task : String
  inputs : List (String × Address)
  outputs : List Address
  deriving DecidableEq

/-- What the arrows at a box tell. -/
def account (d : Drawing) (assets : List Asset) (b : Box) : Account where
  task := b.label
  inputs := d.arrows.filterMap fun a =>
    if a.target = b.id then a.label.bind fun param => (d.address? assets a.source).map (param, ·) else none
  outputs := d.arrows.filterMap fun a => if a.source = b.id then d.address? assets a.target else none

/-- What a drawing tells of the steps, in the order of execution. -/
def accounts (d : Drawing) (assets : List Asset) : List Account :=
  (d.boxes.filter (·.shape = .step)).map (d.account assets)

/-- The key of a place stands for the asset there. -/
theorem address?_assetKey {x : Asset} (hx : g.assets[k]? = some x) :
    (ofGraph g).address? g.assets (assetKey k) = some x.address := by
  have hbox : (ofGraph g).boxes[k]? = some (assetBox x k) := by
    obtain ⟨hk, -⟩ := List.getElem?_eq_some_iff.1 hx
    rw [boxes_ofGraph, List.getElem?_append_left (by simpa using hk), List.getElem?_mapIdx, hx]
    rfl
  have hplace : (ofGraph g).boxes.findIdx? (·.id == assetKey k) = some k :=
    Graph.findIdx?_of_getElem? (nodup_ids g) hbox
  unfold address?
  rw [hplace, Option.bind_some, hx, Option.map_some]

theorem address?_place {a : Address} (ha : a ∈ g.assets.map (·.address)) :
    (ofGraph g).address? g.assets (assetKey (g.place a)) = some a := by
  obtain ⟨x, hx, rfl⟩ := Graph.exists_getElem?_place ha
  exact address?_assetKey hx

/-- **A step is read back from the arrows at its box.**  No other step has an arrow that goes to its key or
comes from it, as keys of assets are different from those of steps. -/
theorem account_stepBox (hg : g.Complete) (hs : g.steps[k]? = some s) :
    (ofGraph g).account g.assets (stepBox s k) =
      ⟨s.task.name, s.inputs.map fun i => (i.1, i.2.address), [s.output.address]⟩ := by
  have htouched := hg.touched s (List.mem_of_getElem? hs)
  have hinput : ∀ i ∈ s.inputs, (ofGraph g).address? g.assets (assetKey (g.place i.2.address)) =
      some i.2.address :=
    fun i hi => address?_place (htouched _ (List.mem_append_left _ (List.mem_map.2 ⟨i, hi, rfl⟩)))
  have houtput : (ofGraph g).address? g.assets (assetKey (g.place s.output.address)) =
      some s.output.address :=
    address?_place (htouched _ (List.mem_append_right _ (List.mem_singleton_self _)))
  have hother : ∀ {j : ℕ}, j ≠ k → stepKey j ≠ stepKey k := fun hj hsame => hj (stepKey_inj.1 hsame)
  unfold account
  rw [arrows_ofGraph hg, List.filterMap_flatten, List.filterMap_flatten, map_mapIdx, map_mapIdx,
    flatten_mapIdx_of_ne hs, flatten_mapIdx_of_ne hs]
  · congr 1
    · have hinputs : s.inputs.filterMap (fun i =>
          ((ofGraph g).address? g.assets (assetKey (g.place i.2.address))).map (i.1, ·)) =
          s.inputs.map fun i => (i.1, i.2.address) := by
        rw [← List.filterMap_eq_map]
        refine List.filterMap_congr fun i hi => ?_
        rw [hinput i hi]
        rfl
      simpa [wholeArrows, stepBox, List.filterMap_map, Function.comp_def, assetKey_ne_stepKey] using hinputs
    · simp [wholeArrows, stepBox, List.filterMap_map, assetKey_ne_stepKey, houtput]
  · intro j t hj
    simp [wholeArrows, stepBox, List.filterMap_map, hother hj, assetKey_ne_stepKey]
  · intro j t hj
    simp [wholeArrows, stepBox, List.filterMap_map, hother hj, assetKey_ne_stepKey]

/-- **The steps are read back from the drawing.** -/
theorem accounts_ofGraph (hg : g.Complete) : (ofGraph g).accounts g.assets =
    g.steps.map fun s => ⟨s.task.name, s.inputs.map fun i => (i.1, i.2.address), [s.output.address]⟩ := by
  unfold accounts
  rw [stepBoxes_ofGraph, map_mapIdx]
  refine List.ext_getElem (by simp) fun k hk hk' => ?_
  rw [List.getElem_mapIdx, List.getElem_map]
  exact account_stepBox hg (List.getElem?_eq_getElem _)

end Drawing

namespace Session

variable {α : Type u} {s : Session α} {terminals : List Asset}

/-- A graph that a client builds has one asset for everything that its steps touch. -/
theorem complete_of_graph (hs : s.Reachable) (hterminals : ∀ a ∈ terminals, s.Offers (.asset a))
    {g : Graph} (hg : s.graph terminals = .ok g) : g.Complete := by
  obtain ⟨home, hsound, hknown⟩ := hs.exists_knows hterminals
  obtain ⟨haddresses, hmem⟩ := Graph.addresses_of_ofTerminals hsound.catalog hknown hg
  refine ⟨haddresses, fun t ht a ha => (hmem a).2 (List.mem_append_left _ ?_)⟩
  exact List.mem_flatMap.2 ⟨t, ht, ha⟩

theorem terminals_of_graph (hs : s.Reachable) (hterminals : ∀ a ∈ terminals, s.Offers (.asset a))
    {g : Graph} (hg : s.graph terminals = .ok g) : g.terminals = terminals.map (·.address) := by
  obtain ⟨home, hsound, hknown⟩ := hs.exists_knows hterminals
  obtain ⟨v, -, hshows⟩ := Graph.shows_of_ofTerminals hsound.catalog hknown hg
  exact hshows.terminals

/-- **The drawing of a graph loses and invents nothing.**

* Keys tell the boxes apart; there is one box of storage for each asset, in the order of the assets, and one
  box of a step for each step, in the order of execution.
* Everything that a step touches has a place among the assets, and one only.
* The arrows are those of the steps, step by step: one from the data of each parameter, with the name of the
  parameter, then one to the output.
* The numbers are those of the boxes and of the arrows.
* Each step is read back from the drawing and the list of the assets. -/
theorem drawing_of_graph (hs : s.Reachable) (hterminals : ∀ a ∈ terminals, s.Offers (.asset a))
    {g : Graph} (hg : s.graph terminals = .ok g) {d : Drawing} (hd : d = Drawing.ofGraph g) :
    (d.boxes.map (·.id)).Nodup ∧
    d.boxes.filter (·.shape = .storage) = g.assets.mapIdx (fun k x => Drawing.assetBox x k) ∧
    d.boxes.filter (·.shape = .step) = g.steps.mapIdx (fun k t => Drawing.stepBox t k) ∧
    (g.assets.map (·.address)).Nodup ∧
    (∀ t ∈ g.steps, ∀ a ∈ t.touched, ∃ x, g.assets[g.place a]? = some x ∧ x.address = a) ∧
    d.arrows = (g.steps.mapIdx fun k t =>
      t.inputs.map (fun i => ⟨Drawing.assetKey (g.place i.2.address), Drawing.stepKey k, some i.1⟩) ++
        [⟨Drawing.stepKey k, Drawing.assetKey (g.place t.output.address), none⟩]).flatten ∧
    d.tally = ⟨(d.boxes.filter (·.shape = .storage)).length, (d.boxes.filter (·.shape = .step)).length,
      d.arrows.length, terminals.map (·.address.text)⟩ ∧
    d.arrows.length = (g.steps.map fun t => t.inputs.length + 1).sum ∧
    d.accounts g.assets =
      g.steps.map fun t => ⟨t.task.name, t.inputs.map fun i => (i.1, i.2.address), [t.output.address]⟩ := by
  subst hd
  have hcomplete := complete_of_graph hs hterminals hg
  refine ⟨Drawing.nodup_ids g, Drawing.storageBoxes_ofGraph g, Drawing.stepBoxes_ofGraph g,
    hcomplete.addresses, fun t ht a ha => Graph.exists_getElem?_place (hcomplete.touched t ht a ha),
    Drawing.arrows_ofGraph hcomplete, ?_, Drawing.length_arrows hcomplete,
    Drawing.accounts_ofGraph hcomplete⟩
  rw [Drawing.storageBoxes_ofGraph, Drawing.stepBoxes_ofGraph, List.length_mapIdx, List.length_mapIdx]
  unfold Drawing.ofGraph
  dsimp only
  rw [terminals_of_graph hs hterminals hg, List.map_map]
  rfl

namespace Mounts

/-- The output, and data that no step touches. -/
def corners (name : String) : List Asset := [report.producedBy 1, south name]

/-- The graph behind both. -/
def cornered (name : String) (t : Task) : Graph :=
  ⟨[report.address, (south name).address], [north, report, south name], [step north t],
    [(.asset north.address, .step 1), (.step 1, .asset report.address)]⟩

theorem offers_corners {name : String} {other : Asset} {t : Task} :
    ∀ a ∈ corners name, (session name other t).Offers (.asset a) := by
  intro a ha
  rcases List.mem_pair.1 ha with rfl | rfl
  · exact .of_item? "report" rfl
  · exact .of_item? "south" rfl

theorem cornered_eq {t : Task} :
    (session "sales" north t).graph (corners "sales") = .ok (cornered "sales" t) := by
  cbv

end Mounts

/-- Two parameters that are given the same data have an arrow each, though the graph has one link for both,
and data that no step touches has a box without arrows. -/
theorem drawing_of_graph_corners :
    (Mounts.session "sales" Mounts.north Mounts.merge).graph (Mounts.corners "sales") =
      .ok (Mounts.cornered "sales" Mounts.merge) ∧
    (Drawing.ofGraph (Mounts.cornered "sales" Mounts.merge)).arrows =
      [⟨"n0", "s0", some "left"⟩, ⟨"n0", "s0", some "right"⟩, ⟨"s0", "n1", none⟩] ∧
    (Drawing.ofGraph (Mounts.cornered "sales" Mounts.merge)).tally =
      ⟨3, 1, 3, ["report@/report", "sales@/south"]⟩ ∧
    (Drawing.ofGraph (Mounts.cornered "sales" Mounts.merge)).accounts
        (Mounts.cornered "sales" Mounts.merge).assets =
      [⟨"merge", [("left", ⟨"sales", "/north"⟩), ("right", ⟨"sales", "/north"⟩)],
        [⟨"report", "/report"⟩]⟩] := by
  obtain ⟨-, hstorage, hsteps, -, -, harrows, htally, hlength, haccounts⟩ :=
    drawing_of_graph (Mounts.reachable (t := Mounts.merge) rfl (.inl rfl)) Mounts.offers_corners
      Mounts.cornered_eq rfl
  refine ⟨Mounts.cornered_eq, harrows.trans ?_, htally.trans ?_, haccounts⟩
  · rfl
  · rw [hstorage, hsteps, hlength]
    rfl

end Session

end Provenance
