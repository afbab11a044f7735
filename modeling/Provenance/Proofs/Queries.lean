import Provenance.Proofs.Graph.Sound
import Provenance.Proofs.Session

/-!
# What graphs answer

A graph holds what its steps read and write twice: in its steps, and in its links.  The questions to it
look here or there, and their answers agree all the same.

* `Graph.Sound.consumers_eq`: the readers that the links show are the steps that name the address among
  their inputs, in the order of execution.
* `Graph.Sound.mem_downstream_iff`, `Graph.mem_edges_iff_mem_upstream`: downstream, which goes by links,
  and upstream, which goes by outputs, are the two ends of the same edges.
* `Graph.Sound.mem_sources_iff`, `Graph.Sound.mem_sinks_iff`: the ends of a graph are the assets that
  nothing produces and those that nothing reads.
* `Session.queries_of_graph`: **all of this for every graph that a client builds**.
-/

namespace Provenance

universe u

instance (s : Step) (a : Address) : Decidable (s.ReadsFrom a) :=
  inferInstanceAs (Decidable (∃ i ∈ s.inputs, i.2.address = a))

theorem Step.mem_touched_iff {s : Step} {a : Address} :
    a ∈ s.touched ↔ s.ReadsFrom a ∨ s.output.address = a := by
  unfold Step.touched Step.ReadsFrom
  rw [List.mem_append, List.mem_map, List.mem_singleton]
  exact or_congr_right eq_comm

namespace Graph

variable {g : Graph} {a : Address} {x : Asset} {p c : StepId}

theorem asset?_isSome_of_mem (hx : x ∈ g.assets) : (g.asset? x.address).isSome :=
  List.find?_isSome.2 ⟨x, hx, by simp⟩

theorem mem_sources_iff : x ∈ g.sources ↔ x ∈ g.assets ∧ g.producer? x.address = none := by
  unfold sources isSource
  rw [List.mem_filter, Option.isNone_iff_eq_none]

section

variable (hg : g.Sound)

include hg

/-- **The readers that the links show** are those that the inputs of the steps show. -/
theorem Sound.consumers_eq (a : Address) :
    g.consumers a = g.steps.filter fun t => t.ReadsFrom a := by
  unfold consumers
  exact List.filter_congr fun t ht => decide_eq_decide.2 (hg.mem_links_iff ht)

theorem Sound.consumers_eq_nil_iff :
    g.consumers a = [] ↔ ∀ t ∈ g.steps, ¬ t.ReadsFrom a := by
  rw [List.eq_nil_iff_forall_not_mem]
  simp only [hg.mem_consumers_iff, not_and]

theorem Sound.nodup_consumers (a : Address) : (g.consumers a).Nodup := by
  rw [hg.consumers_eq]
  exact hg.nodup_steps.filter _

/-- **Downstream and edges agree**: what reads from a step is what its edges lead to. -/
theorem Sound.mem_downstream_iff : c ∈ g.downstream p ↔ (p, c) ∈ g.edges := by
  rw [hg.mem_edges_iff]
  unfold downstream
  constructor
  · intro hc
    split at hc
    · exact absurd hc List.not_mem_nil
    · rename_i t ht
      obtain ⟨htmem, hid⟩ := (hg.step?_eq_some_iff).1 ht
      obtain ⟨s, hs, rfl⟩ := List.mem_map.1 hc
      obtain ⟨hsmem, hreads⟩ := (hg.mem_consumers_iff).1 hs
      exact ⟨t, htmem, s, hsmem, by rw [hid], hreads⟩
  · rintro ⟨t, ht, s, hs, heq, hreads⟩
    obtain ⟨rfl, rfl⟩ := Prod.mk.inj heq
    rw [(hg.step?_eq_some_iff).2 ⟨ht, rfl⟩]
    exact List.mem_map.2 ⟨s, (hg.mem_consumers_iff).2 ⟨hs, hreads⟩, rfl⟩

/-- No edge is listed twice, though a step may read the same data through several parameters. -/
theorem Sound.nodup_edges : g.edges.Nodup := by
  unfold edges
  rw [List.nodup_flatMap]
  constructor
  · intro s _
    exact (hg.nodup_upstream s.id).map fun p q h => (Prod.mk.inj h).1
  · refine (List.pairwise_map.1 hg.ordered.ids).imp fun {s t} hne => ?_
    rw [Function.onFun, List.disjoint_left]
    intro e hs ht
    obtain ⟨p, -, rfl⟩ := List.mem_map.1 hs
    obtain ⟨q, -, heq⟩ := List.mem_map.1 ht
    exact hne (Prod.mk.inj heq).2.symm

theorem Sound.mem_sinks_iff : x ∈ g.sinks ↔ x ∈ g.assets ∧ g.consumers x.address = [] := by
  unfold sinks
  rw [List.mem_filter, hg.isSink_iff, hg.consumers_eq_nil_iff]
  exact and_congr_right fun hx => and_iff_right (asset?_isSome_of_mem hx)

end

end Graph

namespace Session

variable {α : Type u} {s : Session α} {terminals : List Asset}

/-- **The answers of a graph agree with each other and with its steps.**

* The producer of an address is the one step that writes there, and its consumers are the steps that
  read there, each once and in the order of execution.
* A step is upstream of another one exactly if that one is downstream of it, exactly if there is an edge
  between them, and exactly if the one reads what the other writes; no edge is listed twice.
* There is one asset for each address that a step touches or that is a terminal, and no other.
* The sources are the assets that have no producer, and the sinks those that have no consumer. -/
theorem queries_of_graph (hs : s.Reachable) (hterminals : ∀ a ∈ terminals, s.Offers (.asset a))
    {g : Graph} (hg : s.graph terminals = .ok g) :
    (∀ a t, g.producer? a = some t ↔ t ∈ g.steps ∧ t.output.address = a) ∧
    (∀ a, g.consumers a = g.steps.filter (fun t => t.ReadsFrom a) ∧ (g.consumers a).Nodup) ∧
    (∀ p c, (p ∈ g.upstream c ↔ c ∈ g.downstream p) ∧ (p ∈ g.upstream c ↔ (p, c) ∈ g.edges) ∧
      ((p, c) ∈ g.edges ↔
        ∃ t ∈ g.steps, ∃ u ∈ g.steps, t.id = p ∧ u.id = c ∧ u.ReadsFrom t.output.address)) ∧
    g.edges.Nodup ∧
    ((g.assets.map (·.address)).Nodup ∧ ∀ a, a ∈ g.assets.map (·.address) ↔
      (∃ t ∈ g.steps, t.ReadsFrom a ∨ t.output.address = a) ∨ ∃ x ∈ terminals, x.address = a) ∧
    (∀ x, x ∈ g.sources ↔ x ∈ g.assets ∧ g.producer? x.address = none) ∧
    ∀ x, x ∈ g.sinks ↔ x ∈ g.assets ∧ g.consumers x.address = [] := by
  obtain ⟨home, hsound, hknown⟩ := hs.exists_knows hterminals
  have hgsound := Graph.sound_of_ofTerminals hsound.catalog hknown hg
  obtain ⟨haddresses, hmem⟩ := Graph.addresses_of_ofTerminals hsound.catalog hknown hg
  refine ⟨fun a t => hgsound.producer?_eq_some_iff,
    fun a => ⟨hgsound.consumers_eq a, hgsound.nodup_consumers a⟩, fun p c => ⟨?_, ?_, ?_⟩,
    hgsound.nodup_edges, ⟨haddresses, fun a => ?_⟩, fun x => Graph.mem_sources_iff,
    fun x => hgsound.mem_sinks_iff⟩
  · rw [hgsound.mem_downstream_iff, Graph.mem_edges_iff_mem_upstream]
  · exact Graph.mem_edges_iff_mem_upstream.symm
  · rw [hgsound.mem_edges_iff]
    simp only [Prod.mk.injEq, eq_comm, and_assoc]
  · rw [hmem, List.mem_append, List.mem_flatMap, List.mem_map]
    simp only [Step.mem_touched_iff]

/-- The newer step writes what the older one reads, and so it is found from either end; the raw data is the
only source. -/
theorem queries_of_graph_late :
    (Late.graph Late.copy).consumers Late.clean.address = [Late.older Late.copy] ∧
    2 ∈ (Late.graph Late.copy).upstream 1 ∧ 1 ∈ (Late.graph Late.copy).downstream 2 ∧
    Late.raw ∈ (Late.graph Late.copy).sources ∧ Late.clean ∉ (Late.graph Late.copy).sinks := by
  obtain ⟨hproducer, hconsumers, hsteps, -, -, hsources, hsinks⟩ :=
    queries_of_graph (Late.reachable (t := Late.copy) rfl) (Late.offers _) (Late.graph_eq _)
  have hreaders : (Late.graph Late.copy).consumers Late.clean.address = [Late.older Late.copy] :=
    (hconsumers _).1.trans rfl
  have hedge : (2, 1) ∈ (Late.graph Late.copy).edges :=
    (hsteps 2 1).2.2.2 ⟨Late.newer _, .head _, Late.older _, .tail _ (.head _), rfl, rfl,
      ⟨("x", Late.clean), .head _, rfl⟩⟩
  have hupstream := (hsteps 2 1).2.1.2 hedge
  refine ⟨hreaders, hupstream, (hsteps 2 1).1.1 hupstream, (hsources _).2 ⟨.head _, ?_⟩, fun hsink => ?_⟩
  · rw [Option.eq_none_iff_forall_not_mem]
    intro t ht
    obtain ⟨hmem, hout⟩ := (hproducer _ t).1 ht
    rcases List.mem_cons.1 hmem with rfl | hmem
    · exact absurd hout (by decide)
    · rw [List.mem_singleton.1 hmem] at hout
      exact absurd hout (by decide)
  · have hnone := ((hsinks _).1 hsink).2
    rw [hreaders] at hnone
    exact absurd hnone (List.cons_ne_nil _ _)

end Session

end Provenance
