import Mathlib.Data.List.Nodup
import Provenance.Proofs.Graph.Build

/-!
# Sound graphs

Every graph that is built is sound: its steps are ordered, its links are those of its steps, and each
step gives one asset to each parameter (`sound_of_ofTerminals`).  What the questions to a graph answer
is then plain.

* `producer?_eq_some_iff`: the producer of an address is the step that writes there.
* `mem_consumers_iff`, `isSink_iff`: the readers of an address, and the addresses without any.
* `mem_upstream_iff`, `mem_edges_iff`: a step is upstream of another one that reads what it writes.

The kinds of targets do not enter any of this, so a sound graph stays sound when its steps are bound to
targets of other kinds (`Sound.retarget`).
-/

namespace Provenance

universe u v

/-- A step reads the data at an address. -/
def Step.ReadsFrom (s : Step) (a : Address) : Prop := ∃ i ∈ s.inputs, i.2.address = a

namespace Graph

/-- What the answers of a graph rest on. -/
structure Sound (g : Graph) : Prop where
  ordered : Ordered g.steps
  links : ∀ l, l ∈ g.links ↔ ∃ s ∈ g.steps, l ∈ s.links
  bound : ∀ s ∈ g.steps, Bound s.task s.inputs

/-- **Every graph that is built from a sound catalog is sound.** -/
theorem sound_of_ofTerminals {home : ℕ → Address} {c : Catalog} {alive : List StepId}
    {terminals : List Asset} (hc : c.Sound home) (hterminals : ∀ t ∈ terminals, c.Knows home t)
    {g : Graph} (h : ofTerminals c alive terminals = .ok g) : g.Sound := by
  obtain ⟨v, -, hshows⟩ := shows_of_ofTerminals hc hterminals h
  obtain ⟨-, hsteps⟩ := known_of_ofTerminals hc hterminals h
  exact ⟨hshows.ordered, hshows.links, fun s hs => hc.bound s (Catalog.mem_of_step? (hsteps s hs))⟩

/-! ## Finding -/

/-- Where keys differ, looking for the key of an element finds the element. -/
theorem find?_eq_some_iff {β : Type u} {κ : Type v} [DecidableEq κ] {key : β → κ} {l : List β}
    (hl : (l.map key).Nodup) {k : κ} {x : β} :
    l.find? (fun y => key y == k) = some x ↔ x ∈ l ∧ key x = k := by
  constructor
  · intro h
    exact ⟨List.mem_of_find?_eq_some h, by simpa using List.find?_some h⟩
  · rintro ⟨hx, rfl⟩
    obtain ⟨y, hy⟩ : ∃ y, l.find? (fun y => key y == key x) = some y :=
      Option.isSome_iff_exists.1 (List.find?_isSome.2 ⟨x, hx, by simp⟩)
    have hkey : key y = key x := by simpa using List.find?_some hy
    rw [hy, List.inj_on_of_nodup_map hl (List.mem_of_find?_eq_some hy) hx hkey]

/-- Where keys differ, looking for the place of a key finds the place of its element. -/
theorem findIdx?_of_getElem? {β : Type u} {κ : Type v} [DecidableEq κ] {key : β → κ} {l : List β}
    (hl : (l.map key).Nodup) {k : ℕ} {x : β} (hx : l[k]? = some x) :
    l.findIdx? (fun y => key y == key x) = some k := by
  obtain ⟨hk, rfl⟩ := List.getElem?_eq_some_iff.1 hx
  rw [List.findIdx?_eq_some_iff_getElem]
  refine ⟨hk, by simp, fun j hj => ?_⟩
  have hlen : j < l.length := Nat.lt_trans hj hk
  have hne := List.pairwise_iff_getElem.1 hl j k (by simpa using hlen) (by simpa using hk) hj
  simpa using hne

/-- An edge leads to a step from one upstream of it, and there are no others. -/
theorem mem_edges_iff_mem_upstream {g : Graph} {p c : StepId} :
    (p, c) ∈ g.edges ↔ p ∈ g.upstream c := by
  unfold edges
  rw [List.mem_flatMap]
  constructor
  · rintro ⟨s, -, he⟩
    obtain ⟨q, hq, heq⟩ := List.mem_map.1 he
    obtain ⟨rfl, rfl⟩ := Prod.mk.inj heq
    exact hq
  · intro hp
    have hfound : ∃ s, g.step? c = some s := by
      rw [← Option.isSome_iff_exists, Option.isSome_iff_ne_none]
      intro hnone
      unfold upstream at hp
      rw [hnone] at hp
      exact absurd hp List.not_mem_nil
    obtain ⟨s, hs⟩ := hfound
    have hid : s.id = c := by simpa using List.find?_some hs
    refine ⟨s, List.mem_of_find?_eq_some hs, List.mem_map.2 ⟨p, ?_, by rw [hid]⟩⟩
    rwa [hid]

section

variable {g : Graph} (hg : g.Sound)

include hg

theorem Sound.step?_eq_some_iff {id : StepId} {s : Step} :
    g.step? id = some s ↔ s ∈ g.steps ∧ s.id = id := find?_eq_some_iff hg.ordered.ids

/-- **The producer of an address is the step that writes there.** -/
theorem Sound.producer?_eq_some_iff {a : Address} {s : Step} :
    g.producer? a = some s ↔ s ∈ g.steps ∧ s.output.address = a :=
  find?_eq_some_iff hg.ordered.outputs

theorem Sound.producer?_output {s : Step} (hs : s ∈ g.steps) :
    g.producer? s.output.address = some s := (hg.producer?_eq_some_iff).2 ⟨hs, rfl⟩

theorem Sound.position?_of_getElem? {k : ℕ} {s : Step} (hs : g.steps[k]? = some s) :
    g.position? s.id = some k := findIdx?_of_getElem? hg.ordered.ids hs

/-- **The place of a step is where it stands.** -/
theorem Sound.position?_eq_some_iff {id : StepId} {k : ℕ} :
    g.position? id = some k ↔ ∃ s, g.steps[k]? = some s ∧ s.id = id := by
  constructor
  · intro h
    obtain ⟨hk, hid, -⟩ := List.findIdx?_eq_some_iff_getElem.1 h
    exact ⟨_, List.getElem?_eq_getElem hk, by simpa using hid⟩
  · rintro ⟨s, hs, rfl⟩
    exact hg.position?_of_getElem? hs

theorem Sound.nodup_steps : g.steps.Nodup := hg.ordered.ids.of_map _

theorem Sound.eq_of_id_eq {s t : Step} (hs : s ∈ g.steps) (ht : t ∈ g.steps) (h : s.id = t.id) :
    s = t := List.inj_on_of_nodup_map hg.ordered.ids hs ht h

theorem Sound.eq_of_output_eq {s t : Step} (hs : s ∈ g.steps) (ht : t ∈ g.steps)
    (h : s.output.address = t.output.address) : s = t :=
  List.inj_on_of_nodup_map hg.ordered.outputs hs ht h

/-! ## Reading -/

theorem Sound.mem_links_iff {a : Address} {s : Step} (hs : s ∈ g.steps) :
    (Vertex.asset a, Vertex.step s.id) ∈ g.links ↔ s.ReadsFrom a := by
  rw [hg.links]
  constructor
  · rintro ⟨t, ht, hl⟩
    rcases Step.mem_links.1 hl with ⟨i, hi, heq⟩ | heq
    · obtain ⟨ha, hid⟩ := Prod.mk.inj heq
      obtain rfl := hg.eq_of_id_eq hs ht (Vertex.step.inj hid)
      exact ⟨i, hi, (Vertex.asset.inj ha).symm⟩
    · exact absurd heq (by simp)
  · rintro ⟨i, hi, rfl⟩
    exact ⟨s, hs, Step.mem_links.2 (.inl ⟨i, hi, rfl⟩)⟩

theorem Sound.mem_consumers_iff {a : Address} {s : Step} :
    s ∈ g.consumers a ↔ s ∈ g.steps ∧ s.ReadsFrom a := by
  unfold consumers
  rw [List.mem_filter, decide_eq_true_eq]
  exact and_congr_right fun hs => hg.mem_links_iff hs

/-- An address is a sink exactly if it has an asset and no step reads it. -/
theorem Sound.isSink_iff {a : Address} :
    g.isSink a = true ↔ (g.asset? a).isSome ∧ ∀ s ∈ g.steps, ¬ s.ReadsFrom a := by
  have hany : (g.links.any fun l => l.1 == .asset a) = true ↔ ∃ s ∈ g.steps, s.ReadsFrom a := by
    rw [List.any_eq_true]
    constructor
    · rintro ⟨l, hl, hfst⟩
      obtain ⟨s, hs, hlink⟩ := (hg.links l).1 hl
      rcases Step.mem_links.1 hlink with ⟨i, hi, rfl⟩ | rfl
      · exact ⟨s, hs, i, hi, by simpa using hfst⟩
      · exact absurd hfst (by simp)
    · rintro ⟨s, hs, hreads⟩
      exact ⟨_, (hg.mem_links_iff hs).2 hreads, by simp⟩
  unfold isSink
  rw [Bool.and_eq_true, Bool.not_eq_true', ← Bool.not_eq_true, hany]
  exact and_congr_right fun _ => ⟨fun h s hs hreads => h ⟨s, hs, hreads⟩,
    fun h ⟨s, hs, hreads⟩ => h s hs hreads⟩

/-- **A step is upstream of another one that reads what it writes.** -/
theorem Sound.mem_upstream_iff {s : Step} (hs : s ∈ g.steps) {p : StepId} :
    p ∈ g.upstream s.id ↔ ∃ t ∈ g.steps, t.id = p ∧ s.ReadsFrom t.output.address := by
  unfold upstream
  rw [(hg.step?_eq_some_iff).2 ⟨hs, rfl⟩]
  simp only [List.mem_filter, List.mem_map, decide_eq_true_eq, List.mem_filterMap,
    Option.map_eq_some_iff, hg.producer?_eq_some_iff]
  constructor
  · rintro ⟨-, i, hi, t, ⟨ht, hout⟩, hid⟩
    exact ⟨t, ht, hid, i, hi, hout.symm⟩
  · rintro ⟨t, ht, hid, i, hi, hout⟩
    exact ⟨⟨t, ht, hid⟩, i, hi, t, ⟨ht, hout.symm⟩, hid⟩

theorem Sound.nodup_upstream (c : StepId) : (g.upstream c).Nodup := by
  unfold upstream
  split
  · exact List.nodup_nil
  · exact hg.ordered.ids.filter _

theorem Sound.id_mem_upstream_iff {s t : Step} (hs : s ∈ g.steps) (ht : t ∈ g.steps) :
    t.id ∈ g.upstream s.id ↔ s.ReadsFrom t.output.address := by
  rw [hg.mem_upstream_iff hs]
  constructor
  · rintro ⟨u, hu, hid, hreads⟩
    rwa [← hg.eq_of_id_eq hu ht hid]
  · exact fun hreads => ⟨t, ht, rfl, hreads⟩

theorem Sound.mem_edges_iff {e : StepId × StepId} :
    e ∈ g.edges ↔ ∃ t ∈ g.steps, ∃ s ∈ g.steps, e = (t.id, s.id) ∧ s.ReadsFrom t.output.address := by
  unfold edges
  rw [List.mem_flatMap]
  constructor
  · rintro ⟨s, hs, he⟩
    obtain ⟨p, hp, rfl⟩ := List.mem_map.1 he
    obtain ⟨t, ht, rfl, hreads⟩ := (hg.mem_upstream_iff hs).1 hp
    exact ⟨t, ht, s, hs, rfl, hreads⟩
  · rintro ⟨t, ht, s, hs, rfl, hreads⟩
    exact ⟨s, hs, List.mem_map.2 ⟨t.id, (hg.mem_upstream_iff hs).2 ⟨t, ht, rfl, hreads⟩, rfl⟩⟩

/-- A step stands before those that read what it writes. -/
theorem Sound.lt_of_readsFrom {j k : ℕ} {s t : Step} (ht : g.steps[j]? = some t)
    (hs : g.steps[k]? = some s) (hreads : s.ReadsFrom t.output.address) : j < k := by
  obtain ⟨hk, rfl⟩ := List.getElem?_eq_some_iff.1 hs
  obtain ⟨hj, rfl⟩ := List.getElem?_eq_some_iff.1 ht
  obtain ⟨i, hi, hout⟩ := hreads
  rcases Nat.lt_trichotomy j k with hlt | rfl | hgt
  · exact hlt
  · exact absurd hout (hg.ordered.self _ (List.getElem_mem hk) i hi)
  · exact absurd hout (List.pairwise_iff_getElem.1 hg.ordered.reads k j hk hj hgt i hi)

/-- What a step reads from stands before it. -/
theorem Sound.mem_before_of_readsFrom {before after : List Step} {s t : Step}
    (hsteps : g.steps = before ++ s :: after) (ht : t ∈ g.steps)
    (hreads : s.ReadsFrom t.output.address) : t ∈ before := by
  obtain ⟨i, hi, hout⟩ := hreads
  have hs : s ∈ g.steps := by rw [hsteps]; simp
  have horder := hg.ordered.reads
  rw [hsteps] at ht horder
  obtain ⟨-, horder, -⟩ := List.pairwise_append.1 horder
  rcases List.mem_append.1 ht with ht | ht
  · exact ht
  · rcases List.mem_cons.1 ht with rfl | ht
    · exact absurd hout (hg.ordered.self _ hs i hi)
    · exact absurd hout ((List.pairwise_cons.1 horder).1 t ht i hi)

/-- The steps upstream of a step stand before it. -/
theorem Sound.exists_of_mem_upstream {before after : List Step} {s : Step} {p : StepId}
    (hsteps : g.steps = before ++ s :: after) (hp : p ∈ g.upstream s.id) : ∃ t ∈ before, t.id = p := by
  have hs : s ∈ g.steps := by rw [hsteps]; simp
  obtain ⟨t, ht, rfl, hreads⟩ := (hg.mem_upstream_iff hs).1 hp
  exact ⟨t, hg.mem_before_of_readsFrom hsteps ht hreads, rfl⟩

end

/-- **The producers that a graph shows are those of its survey.** -/
theorem producer?_eq_some_iff_lookup {home : ℕ → Address} {c : Catalog} {alive : List StepId}
    {terminals : List Asset} {v : Survey} {g : Graph} (hc : c.Sound home)
    (hterminals : ∀ t ∈ terminals, c.Knows home t) (hv : Survey.ofTerminals c alive terminals = .ok v)
    (h : ofTerminals c alive terminals = .ok g) {a : Address} {s : Step} :
    g.producer? a = some s ↔ v.producers.lookup a = some s := by
  obtain ⟨w, hw, hshows⟩ := shows_of_ofTerminals hc hterminals h
  obtain rfl := Except.ok.inj (hv.symm.trans hw)
  have hsettled := Survey.settled_of_ofTerminals hv
  rw [(sound_of_ofTerminals hc hterminals h).producer?_eq_some_iff, Order.mem_of_ofSurvey hshows.steps,
    Order.mem_steps hsettled.consistent]
  constructor
  · rintro ⟨⟨b, hb⟩, rfl⟩
    have hlookup := hsettled.lookup_iff.2 hb
    rwa [Survey.output_of_ofTerminals hc hterminals hv hlookup]
  · intro hs
    exact ⟨⟨a, mem_of_lookup hs⟩, Survey.output_of_ofTerminals hc hterminals hv hs⟩

end Graph

end Provenance
