import Provenance.Graph.Basic
import Provenance.Proofs.Assoc
import Provenance.Proofs.Walk

/-!
# Building links

A graph is built by adding steps one after the other.  Adding a step refuses a link that would close a
cycle.  Where the steps are `Ordered`, no link is refused (`foldlM_addStep`): when a link is added,
nothing leads on from the place that it goes to, so the place that it comes from cannot be reached from
there.

What is left is a plain description of the graph.  Its links are those of its steps (`Step.links`), and
its assets are gathered along the addresses that the steps touch (`gather`).
-/

namespace Provenance

/-- The links from the inputs of a step, and the one to its output. -/
def Step.links (s : Step) : List (Vertex × Vertex) :=
  s.inputs.map (fun i => (.asset i.2.address, .step s.id)) ++
    [(.step s.id, .asset s.output.address)]

theorem Step.mem_links {s : Step} {l : Vertex × Vertex} :
    l ∈ s.links ↔ (∃ i ∈ s.inputs, l = (.asset i.2.address, .step s.id)) ∨
      l = (.step s.id, .asset s.output.address) := by
  unfold Step.links
  simp only [List.mem_append, List.mem_map, List.mem_singleton, eq_comm]

/-- The addresses of the inputs of a step and of its output. -/
def Step.touched (s : Step) : List Address := s.inputs.map (·.2.address) ++ [s.output.address]

namespace Graph

/-- Steps whose numbers and outputs differ, none of which reads what it or a later one writes. -/
structure Ordered (steps : List Step) : Prop where
  ids : (steps.map (·.id)).Nodup
  outputs : (steps.map (·.output.address)).Nodup
  reads : steps.Pairwise fun s t => ∀ i ∈ s.inputs, i.2.address ≠ t.output.address
  self : ∀ s ∈ steps, ∀ i ∈ s.inputs, i.2.address ≠ s.output.address

theorem Ordered.of_append {before after : List Step} (h : Ordered (before ++ after)) :
    Ordered before := by
  have hsub : before.Sublist (before ++ after) := List.sublist_append_left before after
  exact ⟨h.ids.sublist (hsub.map _), h.outputs.sublist (hsub.map _), h.reads.sublist hsub,
    fun s hs => h.self s (List.mem_append_left _ hs)⟩

/-! ## Touching addresses -/

/-- The handle that stands for an address in a graph. -/
def handle (v : Survey) (a : Address) : Asset :=
  ((v.handles.lookup a).map Asset.bare).getD ⟨a, none, none, none, 0⟩

/-- Gathers the asset at an address, unless it is there. -/
def gather (v : Survey) (assets : List Asset) (a : Address) : List Asset :=
  if a ∈ assets.map (·.address) then assets else assets ++ [handle v a]

theorem touch_eq (v : Survey) (a : Address) (g : Graph) :
    g.touch v a = { g with assets := gather v g.assets a } := by
  unfold touch gather asset?
  split
  · rename_i x hx
    have haddress : x.address = a := by simpa using List.find?_some hx
    rw [if_pos (List.mem_map.2 ⟨x, List.mem_of_find?_eq_some hx, haddress⟩)]
  · rename_i hnone
    rw [if_neg]
    · rfl
    · rintro hmem
      obtain ⟨x, hx, hxa⟩ := List.mem_map.1 hmem
      exact List.find?_eq_none.1 hnone x hx (by simpa using hxa)

theorem foldl_touch (v : Survey) (as : List Address) :
    ∀ g : Graph, as.foldl (fun g a => g.touch v a) g =
      { g with assets := as.foldl (gather v) g.assets } := by
  induction as with
  | nil => exact fun g => rfl
  | cons a as ih =>
    intro g
    rw [List.foldl_cons, ih, List.foldl_cons, touch_eq]

theorem address_handle {v : Survey} (hv : ∀ e ∈ v.handles, e.2.address = e.1) (a : Address) :
    (handle v a).address = a := by
  unfold handle
  cases h : v.handles.lookup a with
  | none => rfl
  | some known => exact hv _ (mem_of_lookup h)

theorem mem_gather {v : Survey} {assets : List Asset} {a : Address} {x : Asset}
    (h : x ∈ gather v assets a) : x ∈ assets ∨ x = handle v a := by
  unfold gather at h
  split at h
  · exact .inl h
  · exact (List.mem_append.1 h).imp_right List.mem_singleton.1

/-- What is gathered stands for one of the addresses. -/
theorem mem_foldl_gather {v : Survey} {x : Asset} (as : List Address) :
    ∀ {assets : List Asset}, x ∈ as.foldl (gather v) assets →
      x ∈ assets ∨ ∃ a ∈ as, x = handle v a := by
  induction as with
  | nil => exact .inl
  | cons a as ih =>
    intro assets h
    rcases ih h with hx | ⟨b, hb, hx⟩
    · exact (mem_gather hx).imp_right fun hx => ⟨a, List.mem_cons_self, hx⟩
    · exact .inr ⟨b, List.mem_cons_of_mem _ hb, hx⟩

/-- Each address is gathered once. -/
theorem addresses_foldl_gather {v : Survey} (hv : ∀ e ∈ v.handles, e.2.address = e.1)
    (as : List Address) :
    ∀ {assets : List Asset}, (assets.map (·.address)).Nodup →
      ((as.foldl (gather v) assets).map (·.address)).Nodup ∧
        ∀ b, b ∈ (as.foldl (gather v) assets).map (·.address) ↔
          b ∈ assets.map (·.address) ∨ b ∈ as := by
  induction as with
  | nil => exact fun h => ⟨h, by simp⟩
  | cons a as ih =>
    intro assets hassets
    rw [List.foldl_cons]
    by_cases ha : a ∈ assets.map (·.address)
    · rw [gather, if_pos ha]
      refine ⟨(ih hassets).1, fun b => ((ih hassets).2 b).trans ?_⟩
      rw [List.mem_cons]
      refine ⟨Or.imp_right .inr, ?_⟩
      rintro (hb | rfl | hb)
      · exact .inl hb
      · exact .inl ha
      · exact .inr hb
    · have hmap : (gather v assets a).map (·.address) = assets.map (·.address) ++ [a] := by
        rw [gather, if_neg ha, List.map_append, List.map_singleton, address_handle hv]
      have hfresh : ((gather v assets a).map (·.address)).Nodup := by
        rw [hmap]
        exact nodup_append_singleton hassets ha
      refine ⟨(ih hfresh).1, fun b => ((ih hfresh).2 b).trans ?_⟩
      rw [hmap, List.mem_append, List.mem_singleton, List.mem_cons, or_assoc]

/-- The addresses that are gathered come in the order in which they were first asked for. -/
theorem map_address_foldl_gather {v : Survey} (hv : ∀ e ∈ v.handles, e.2.address = e.1)
    (as : List Address) : ∀ assets : List Asset, (as.foldl (gather v) assets).map (·.address) =
      assets.map (·.address) ++ (as.removeAll (assets.map (·.address))).eraseDups := by
  induction as with
  | nil => exact fun assets => (List.append_nil _).symm
  | cons a as ih =>
    intro assets
    rw [List.foldl_cons, ih, gather, List.cons_removeAll]
    by_cases ha : a ∈ assets.map (·.address)
    · rw [if_pos ha, if_neg (by simpa using ha)]
    · have hrest : as.removeAll (assets.map (·.address) ++ [a]) =
          (as.removeAll (assets.map (·.address))).filter fun b => !b == a := by
        unfold List.removeAll
        rw [List.filter_filter]
        refine List.filter_congr fun b _ => ?_
        rw [List.elem_eq_mem, List.elem_eq_mem, ← Bool.not_or]
        congr 1
        simp only [List.mem_append, List.mem_singleton, Bool.decide_or, Bool.or_comm, beq_eq_decide]
      rw [if_neg ha, if_pos (by simpa using ha), List.eraseDups_cons, ← hrest, List.map_append,
        List.map_singleton, address_handle hv, List.append_assoc, List.singleton_append]

/-! ## Adding links -/

theorem lookup_map_self {f : Vertex → List Vertex} {u : Vertex} :
    ∀ {us : List Vertex}, u ∈ us → (us.map fun x => (x, f x)).lookup u = some (f u)
  | [], h => absurd h (by simp)
  | x :: us, h => by
    by_cases hx : u = x
    · subst hx
      exact List.lookup_cons_self
    · rw [List.map_cons, lookup_cons_of_ne _ _ hx]
      exact lookup_map_self ((List.mem_cons.1 h).resolve_left hx)

theorem leads_successors_iff {g : Graph} {u w : Vertex} :
    Walk.Leads g.successors u w ↔ (u, w) ∈ g.links := by
  constructor
  · rintro ⟨places, hplaces, hw⟩
    obtain ⟨x, -, hx⟩ := List.mem_map.1 (mem_of_lookup hplaces)
    obtain ⟨rfl, rfl⟩ := Prod.mk.inj hx
    obtain ⟨l, hl, rfl⟩ := List.mem_map.1 hw
    obtain ⟨hmem, hfst⟩ := List.mem_filter.1 hl
    rwa [← of_decide_eq_true hfst]
  · intro h
    have hu : u ∈ (g.links.map (·.1)).eraseDups :=
      List.mem_eraseDups.2 (List.mem_map.2 ⟨_, h, rfl⟩)
    refine ⟨_, lookup_map_self hu, List.mem_map.2 ⟨(u, w), ?_, rfl⟩⟩
    exact List.mem_filter.2 ⟨h, by simp⟩

/-- A link to a place that nothing leads on from is added. -/
theorem link_eq_ok {g : Graph} {u w : Vertex} (hne : u ≠ w) (hend : ∀ l ∈ g.links, l.1 ≠ w)
    (cycle : List String) :
    g.link u w cycle =
      .ok { g with links := if (u, w) ∈ g.links then g.links else g.links ++ [(u, w)] } := by
  have hreach : u ∉ Walk.reach g.successors [] [w] := by
    rw [Walk.mem_reach_nil_iff]
    rintro ⟨k, hk, hku⟩
    obtain rfl := List.mem_singleton.1 hk
    rcases Relation.ReflTransGen.cases_head hku with rfl | ⟨x, hx, -⟩
    · exact hne rfl
    · exact hend _ (leads_successors_iff.1 hx) rfl
  unfold link
  by_cases hmem : (u, w) ∈ g.links
  · rw [if_pos hmem, if_pos hmem]
  · rw [if_neg hmem, if_neg hreach, if_neg hmem]

/-- What is put at the end unless it is there is in afterwards. -/
theorem mem_ite_append_singleton {l x : Vertex × Vertex} {links : List (Vertex × Vertex)} :
    x ∈ (if l ∈ links then links else links ++ [l]) ↔ x ∈ links ∨ x = l := by
  split
  · rename_i hl
    exact ⟨.inl, fun hx => hx.elim id fun heq => heq ▸ hl⟩
  · rw [List.mem_append, List.mem_singleton]

/-- The links to a step are added where the step has no link to its output yet. -/
theorem linkInputs_eq_ok {v : Survey} {s : Step} (is : List (String × Asset)) :
    ∀ g : Graph, (∀ l ∈ g.links, l.1 ≠ .step s.id) →
      ∃ links, is.foldlM (fun g i => (g.touch v i.2.address).link (.asset i.2.address) (.step s.id)
          [i.2.address.name, s.output.address.name]) g =
        Except.ok { g with
          assets := (is.map (·.2.address)).foldl (gather v) g.assets
          links := links } ∧
        ∀ l, l ∈ links ↔
          l ∈ g.links ∨ l ∈ is.map fun i => (Vertex.asset i.2.address, Vertex.step s.id) := by
  induction is with
  | nil => exact fun g _ => ⟨g.links, rfl, by simp⟩
  | cons i is ih =>
    intro g hend
    let l := (Vertex.asset i.2.address, Vertex.step s.id)
    let g' : Graph := { g with
      assets := gather v g.assets i.2.address
      links := if l ∈ g.links then g.links else g.links ++ [l] }
    have hlink : (g.touch v i.2.address).link (.asset i.2.address) (.step s.id)
        [i.2.address.name, s.output.address.name] = .ok g' := by
      have hne : Vertex.asset i.2.address ≠ Vertex.step s.id := by simp
      rw [touch_eq]
      exact link_eq_ok (g := { g with assets := gather v g.assets i.2.address }) hne hend _
    have hmem : ∀ x, x ∈ g'.links ↔ x ∈ g.links ∨ x = l := fun x => mem_ite_append_singleton
    have hend' : ∀ x ∈ g'.links, x.1 ≠ .step s.id := by
      intro x hx
      rcases (hmem x).1 hx with hx | rfl
      · exact hend x hx
      · simp [l]
    obtain ⟨links, hlinks, hspec⟩ := ih g' hend'
    refine ⟨links, ?_, fun x => ?_⟩
    · rw [List.foldlM_cons, hlink]
      exact hlinks
    · rw [hspec, hmem, List.map_cons, List.mem_cons, or_assoc]

/-- Adding a step that has no links, and whose output is not read, succeeds. -/
theorem addStep_eq_ok {v : Survey} {g : Graph} {s : Step} (hstep : ∀ l ∈ g.links, l.1 ≠ .step s.id)
    (hout : ∀ l ∈ g.links, l.1 ≠ .asset s.output.address)
    (hself : ∀ i ∈ s.inputs, i.2.address ≠ s.output.address) :
    ∃ links, addStep v g s = .ok { g with
        assets := s.touched.foldl (gather v) g.assets
        steps := g.steps ++ [s]
        links := links } ∧
      ∀ l, l ∈ links ↔ l ∈ g.links ∨ l ∈ s.links := by
  obtain ⟨links, hlinks, hspec⟩ := linkInputs_eq_ok (v := v) s.inputs g hstep
  let l := (Vertex.step s.id, Vertex.asset s.output.address)
  let g' : Graph := { g with
    assets := (s.inputs.map (·.2.address)).foldl (gather v) g.assets
    links := links }
  have hend : ∀ x ∈ links, x.1 ≠ .asset s.output.address := by
    intro x hx
    rcases (hspec x).1 hx with hx | hx
    · exact hout x hx
    · obtain ⟨i, hi, rfl⟩ := List.mem_map.1 hx
      simpa using hself i hi
  have hlink : (g'.touch v s.output.address).link (.step s.id) (.asset s.output.address)
      [s.output.address.name, s.output.address.name] = .ok { g' with
        assets := gather v g'.assets s.output.address
        links := if l ∈ links then links else links ++ [l] } := by
    rw [touch_eq]
    exact link_eq_ok (by simp) hend _
  refine ⟨if l ∈ links then links else links ++ [l], ?_, fun x => ?_⟩
  · unfold addStep linkInputs
    rw [hlinks]
    dsimp only [bind, Except.bind]
    rw [hlink]
    dsimp only [pure, Except.pure, g']
    unfold Step.touched
    rw [List.foldl_append]
    rfl
  · unfold Step.links
    rw [List.mem_append, List.mem_singleton, ← or_assoc, ← hspec]
    exact mem_ite_append_singleton

/-- **Adding ordered steps refuses no link.** -/
theorem foldlM_addStep (v : Survey) (terminals : List Address) {steps : List Step}
    (h : Ordered steps) :
    ∃ links, steps.foldlM (addStep v) (bare terminals) =
        .ok ⟨terminals, (steps.flatMap Step.touched).foldl (gather v) [], steps, links⟩ ∧
      ∀ l, l ∈ links ↔ ∃ s ∈ steps, l ∈ s.links := by
  induction steps using List.reverseRecOn with
  | nil => exact ⟨[], rfl, by simp⟩
  | append_singleton steps s ih =>
    obtain ⟨links, hlinks, hspec⟩ := ih h.of_append
    let g : Graph := ⟨terminals, (steps.flatMap Step.touched).foldl (gather v) [], steps, links⟩
    have hstep : ∀ l ∈ links, l.1 ≠ .step s.id := by
      intro l hl
      obtain ⟨t, ht, hl⟩ := (hspec l).1 hl
      rcases Step.mem_links.1 hl with ⟨i, -, rfl⟩ | rfl
      · simp
      · have hids := h.ids
        rw [List.map_append, List.map_singleton] at hids
        have hne := (List.nodup_append.1 hids).2.2 t.id (List.mem_map.2 ⟨t, ht, rfl⟩) s.id (by simp)
        simpa using hne
    have hout : ∀ l ∈ links, l.1 ≠ .asset s.output.address := by
      intro l hl
      obtain ⟨t, ht, hl⟩ := (hspec l).1 hl
      rcases Step.mem_links.1 hl with ⟨i, hi, rfl⟩ | rfl
      · have hne := (List.pairwise_append.1 h.reads).2.2 t ht s (by simp) i hi
        simpa using hne
      · simp
    obtain ⟨links', hlinks', hspec'⟩ := addStep_eq_ok (v := v) (g := g) hstep hout
      (h.self s (by simp))
    refine ⟨links', ?_, fun l => ?_⟩
    · rw [List.foldlM_append, hlinks]
      dsimp only [bind, Except.bind]
      rw [List.foldlM_cons, hlinks', List.flatMap_append, List.foldl_append, List.flatMap_singleton]
      rfl
    · rw [hspec', hspec]
      simp only [List.mem_append, List.mem_singleton, or_and_right, exists_or, exists_eq_left]

end Graph

end Provenance
