import Mathlib.Data.List.Nodup
import Provenance.Graph.Order
import Provenance.Proofs.Assoc

/-!
# Waiting by counting

Whoever waits for others can count those that are still out, and be ready when the count comes to zero.
`Waiting` keeps the counts and, in ascending order, who is ready; `Waiting.lower` is told that one more is
in.  `Waiting.Tells` says what the counts and the list mean: of some that are gone, and of some that have
been taken off the list.

Two things happen to such a book, and both keep it true.  The first that is ready is taken
(`Waiting.Tells.take`), and those that wait for one that is gone now are lowered
(`Waiting.Tells.lower`).  The order of execution does both at once for each step that it places; the
scheduler of a run takes a step when it starts and lowers the counts when it is done.
-/

namespace Provenance.Order

/-! ## The ascending list of ready steps -/

theorem mem_place {id x : StepId} : ∀ {l : List StepId}, x ∈ place id l ↔ x = id ∨ x ∈ l
  | [] => by simp [place]
  | other :: rest => by
    unfold place
    split
    · exact List.mem_cons
    · split
      · rename_i h
        simp [h]
      · rw [List.mem_cons, mem_place, List.mem_cons, or_left_comm]

theorem pairwise_place (id : StepId) :
    ∀ {l : List StepId}, l.Pairwise (· < ·) → (place id l).Pairwise (· < ·)
  | [], _ => by simp [place]
  | other :: rest, h => by
    obtain ⟨hhead, hrest⟩ := List.pairwise_cons.1 h
    unfold place
    split
    · rename_i hlt
      refine List.pairwise_cons.2 ⟨fun x hx => ?_, h⟩
      rcases List.mem_cons.1 hx with rfl | hx
      · exact hlt
      · exact Nat.lt_trans hlt (hhead x hx)
    · split
      · exact h
      · refine List.pairwise_cons.2 ⟨fun x hx => ?_, pairwise_place id hrest⟩
        rcases mem_place.1 hx with rfl | hx
        · exact Nat.lt_of_le_of_ne (Nat.le_of_not_lt ‹_›) (Ne.symm ‹_›)
        · exact hhead x hx

theorem foldr_place (l : List StepId) :
    (l.foldr place []).Pairwise (· < ·) ∧ ∀ x, x ∈ l.foldr place [] ↔ x ∈ l := by
  induction l with
  | nil => simp
  | cons id l ih =>
    rw [List.foldr_cons]
    exact ⟨pairwise_place id ih.1, fun x => by rw [mem_place, ih.2, List.mem_cons]⟩

/-! ## Lowering counts -/

theorem lower_of_none {w : Waiting} {id : StepId} (h : w.counts.lookup id = none) :
    w.lower id = w := by
  unfold Waiting.lower
  rw [h]

theorem lower_of_some {w : Waiting} {id : StepId} {n : ℕ} (h : w.counts.lookup id = some n) :
    w.lower id =
      ⟨assign id (n - 1) w.counts, if n - 1 = 0 then place id w.ready else w.ready⟩ := by
  unfold Waiting.lower
  rw [h]

theorem lookup_lower (w : Waiting) (id x : StepId) :
    (w.lower id).counts.lookup x =
      if x = id then (w.counts.lookup x).map (· - 1) else w.counts.lookup x := by
  cases h : w.counts.lookup id with
  | none =>
    rw [lower_of_none h]
    split
    · rename_i hx
      rw [hx, h]
      rfl
    · rfl
  | some n =>
    rw [lower_of_some h, lookup_assign]
    split
    · rename_i hx
      rw [hx, h]
      rfl
    · rfl

theorem mem_ready_lower {w : Waiting} {id x : StepId} :
    x ∈ (w.lower id).ready ↔ x ∈ w.ready ∨ x = id ∧ ∃ n, w.counts.lookup x = some n ∧ n ≤ 1 := by
  cases h : w.counts.lookup id with
  | none =>
    rw [lower_of_none h]
    refine ⟨.inl, ?_⟩
    rintro (hx | ⟨rfl, n, hn, -⟩)
    · exact hx
    · rw [h] at hn
      exact absurd hn (by simp)
  | some n =>
    rw [lower_of_some h]
    by_cases hn : n - 1 = 0
    · rw [if_pos hn, mem_place, or_comm]
      exact or_congr_right ⟨fun hx => ⟨hx, n, hx ▸ h, by omega⟩, And.left⟩
    · rw [if_neg hn]
      refine ⟨.inl, ?_⟩
      rintro (hx | ⟨rfl, m, hm, hle⟩)
      · exact hx
      · rw [h] at hm
        obtain rfl := Option.some.inj hm
        omega

theorem pairwise_ready_lower {w : Waiting} (id : StepId) (h : w.ready.Pairwise (· < ·)) :
    (w.lower id).ready.Pairwise (· < ·) := by
  cases hid : w.counts.lookup id with
  | none => rwa [lower_of_none hid]
  | some n =>
    rw [lower_of_some hid]
    dsimp only
    split
    · exact pairwise_place id h
    · exact h

/-- Lowering several different counts: each is lowered once. -/
theorem foldl_lower {l : List StepId} (hl : l.Nodup) :
    ∀ w : Waiting, w.ready.Pairwise (· < ·) →
      let w' := l.foldl Waiting.lower w
      w'.ready.Pairwise (· < ·) ∧
      (∀ x, w'.counts.lookup x =
        if x ∈ l then (w.counts.lookup x).map (· - 1) else w.counts.lookup x) ∧
      ∀ x, x ∈ w'.ready ↔ x ∈ w.ready ∨ x ∈ l ∧ ∃ n, w.counts.lookup x = some n ∧ n ≤ 1 := by
  induction l with
  | nil => exact fun w hw => ⟨hw, by simp, by simp⟩
  | cons id l ih =>
    intro w hw
    obtain ⟨hid, hl⟩ := List.nodup_cons.1 hl
    obtain ⟨hsorted, hcounts, hready⟩ := ih hl (w.lower id) (pairwise_ready_lower id hw)
    rw [List.foldl_cons]
    refine ⟨hsorted, fun x => ?_, fun x => ?_⟩
    · rw [hcounts, lookup_lower]
      by_cases hx : x = id
      · subst hx
        simp [hid]
      · simp [hx]
    · rw [hready, mem_ready_lower, lookup_lower]
      by_cases hx : x = id
      · subst hx
        simp [hid]
      · simp [hx]

/-- As `Waiting.lower`, but a count of zero is not lowered. -/
def Waiting.lower? (w : Waiting) (id : StepId) : Option Waiting :=
  match w.counts.lookup id with
  | some 0 => none
  | _ => some (w.lower id)

/-- Where every count is above zero, lowering several different counts does not fail. -/
theorem foldlM_lower? {l : List StepId} (hl : l.Nodup) :
    ∀ w : Waiting, (∀ x ∈ l, w.counts.lookup x ≠ some 0) →
      l.foldlM Waiting.lower? w = some (l.foldl Waiting.lower w) := by
  induction l with
  | nil => exact fun w _ => rfl
  | cons id l ih =>
    intro w hw
    obtain ⟨hid, hl⟩ := List.nodup_cons.1 hl
    have hlower : w.lower? id = some (w.lower id) := by
      unfold Waiting.lower?
      split
      · rename_i h
        exact absurd h (hw id List.mem_cons_self)
      · rfl
    rw [List.foldlM_cons, hlower, List.foldl_cons]
    refine ih hl (w.lower id) fun x hx => ?_
    have hne : x ≠ id := fun h => hid (h ▸ hx)
    rw [lookup_lower, if_neg hne]
    exact hw x (List.mem_cons_of_mem _ hx)

/-! ## What the counts mean -/

namespace Waiting

variable {ι : Type*} {key : ι → ℕ} {waits : ι → List ℕ} {all : List ι} {taken gone : List ℕ}
  {w : Waiting} {p : ℕ}

/-- The counts say how many each waits for that are not gone, and the list says who waits for none and has
not been taken. -/
structure Tells (key : ι → ℕ) (waits : ι → List ℕ) (all : List ι) (taken gone : List ℕ) (w : Waiting) :
    Prop where
  counts : ∀ s ∈ all, w.counts.lookup (key s) = some ((waits s).filter (· ∉ gone)).length
  ready : ∀ p, p ∈ w.ready ↔ p ∉ taken ∧ ∃ s ∈ all, key s = p ∧ ∀ q ∈ waits s, q ∈ gone
  sorted : w.ready.Pairwise (· < ·)

/-- Before anyone is gone, those with a count of zero are ready. -/
theorem tells_of_start (hall : (all.map key).Nodup) {ready : List ℕ}
    (hready : ∀ p, p ∈ ready ↔
      p ∈ ((all.map fun s => (key s, (waits s).length)).filter (·.2 == 0)).map (·.1))
    (hsorted : ready.Pairwise (· < ·)) :
    Tells key waits all [] [] ⟨all.map fun s => (key s, (waits s).length), ready⟩ := by
  have hkeys : ((all.map fun s => (key s, (waits s).length)).map (·.1)).Nodup := by
    rwa [List.map_map]
  refine ⟨fun s hs => ?_, fun p => (hready p).trans ?_, hsorted⟩
  · simpa using lookup_of_mem hkeys (List.mem_map.2 ⟨s, hs, rfl⟩)
  · simp only [List.mem_map, List.mem_filter, List.not_mem_nil, not_false_eq_true, true_and]
    constructor
    · rintro ⟨e, ⟨⟨s, hs, rfl⟩, hzero⟩, rfl⟩
      have hnil : waits s = [] := List.length_eq_zero_iff.1 (by simpa using hzero)
      exact ⟨s, hs, rfl, by simp [hnil]⟩
    · rintro ⟨s, hs, rfl, hnone⟩
      have hnil : waits s = [] := List.eq_nil_iff_forall_not_mem.2 hnone
      exact ⟨_, ⟨⟨s, hs, rfl⟩, by simp [hnil]⟩, rfl⟩

/-- The first that is ready is the least. -/
theorem Tells.le_of_ready (h : w.Tells key waits all taken gone) {ready : List ℕ}
    (hw : w.ready = p :: ready) {q : ℕ} (hq : q ∈ w.ready) : p ≤ q := by
  have hsorted := h.sorted
  rw [hw] at hsorted hq
  rcases List.mem_cons.1 hq with rfl | hq
  · exact Nat.le_refl _
  · exact Nat.le_of_lt ((List.pairwise_cons.1 hsorted).1 q hq)

/-- **Taking the first that is ready keeps the book true.** -/
theorem Tells.take (h : w.Tells key waits all taken gone) {ready : List ℕ} (hw : w.ready = p :: ready) :
    Tells key waits all (taken ++ [p]) gone { w with ready } := by
  have hsorted := h.sorted
  rw [hw, List.pairwise_cons] at hsorted
  refine ⟨h.counts, fun q => ?_, hsorted.2⟩
  have hq := h.ready q
  rw [hw, List.mem_cons] at hq
  rw [List.mem_append, List.mem_singleton, not_or]
  constructor
  · intro hmem
    obtain ⟨hfresh, hfree⟩ := hq.1 (.inr hmem)
    exact ⟨⟨hfresh, Nat.ne_of_gt (hsorted.1 q hmem)⟩, hfree⟩
  · rintro ⟨⟨hfresh, hne⟩, hfree⟩
    exact (hq.2 ⟨hfresh, hfree⟩).resolve_left hne

/-- What is still waited for, after one more is gone. -/
theorem length_filter_gone {l : List ℕ} (hl : l.Nodup) (hp : p ∉ gone) :
    (l.filter (· ∉ gone ++ [p])).length =
      if p ∈ l then (l.filter (· ∉ gone)).length - 1 else (l.filter (· ∉ gone)).length := by
  have herase : l.filter (· ∉ gone ++ [p]) = (l.filter (· ∉ gone)).erase p := by
    rw [(hl.filter _).erase_eq_filter, List.filter_filter]
    refine List.filter_congr fun x _ => ?_
    by_cases hx : x = p <;> simp [hx]
  rw [herase, List.length_erase]
  simp [List.mem_filter, hp]

/-- Who waits for one that is not gone has a count above zero. -/
theorem Tells.lookup_ne_zero (h : w.Tells key waits all taken gone) (hp : p ∉ gone) {s : ι} (hs : s ∈ all)
    (hwaits : p ∈ waits s) : w.counts.lookup (key s) ≠ some 0 := by
  rw [h.counts s hs]
  intro hzero
  have hnil := List.length_eq_zero_iff.1 (Option.some.inj hzero)
  have hmem : p ∈ (waits s).filter (· ∉ gone) := List.mem_filter.2 ⟨hwaits, decide_eq_true hp⟩
  rw [hnil] at hmem
  exact absurd hmem (by simp)

/-- Who waits for `p` waits for nothing else exactly if the count is at most one. -/
theorem Tells.count_le_one_iff (h : w.Tells key waits all taken gone) (hp : p ∉ gone) {s : ι}
    (hs : s ∈ all) (hnodup : (waits s).Nodup) (hwaits : p ∈ waits s) :
    (∃ n, w.counts.lookup (key s) = some n ∧ n ≤ 1) ↔ ∀ q ∈ waits s, q ∈ gone ++ [p] := by
  have hzero : ((waits s).filter (· ∉ gone)).length ≤ 1 ↔
      ((waits s).filter (· ∉ gone ++ [p])).length = 0 := by
    rw [length_filter_gone hnodup hp, if_pos hwaits]
    omega
  rw [h.counts s hs]
  constructor
  · rintro ⟨n, hn, hle⟩ q hq
    obtain rfl := Option.some.inj hn
    have hnil := List.filter_eq_nil_iff.1 (List.length_eq_zero_iff.1 (hzero.1 hle)) q hq
    simpa [or_iff_not_imp_left] using hnil
  · intro hall
    refine ⟨_, rfl, hzero.2 (List.length_eq_zero_iff.2 (List.filter_eq_nil_iff.2 fun q hq => ?_))⟩
    simpa [or_iff_not_imp_left] using hall q hq

/-- Who is ready after one more is gone: who was ready before, and who waited for it and for no other. -/
theorem Tells.ready_iff_lower (h : w.Tells key waits all taken gone) (hp : p ∉ gone)
    (hnodup : ∀ s ∈ all, (waits s).Nodup) (huntaken : ∀ s ∈ all, p ∈ waits s → key s ∉ taken) (x : ℕ) :
    (x ∈ w.ready ∨ (∃ s ∈ all, key s = x ∧ p ∈ waits s) ∧ ∃ n, w.counts.lookup x = some n ∧ n ≤ 1) ↔
      x ∉ taken ∧ ∃ s ∈ all, key s = x ∧ ∀ q ∈ waits s, q ∈ gone ++ [p] := by
  constructor
  · rintro (hx | ⟨⟨s, hs, rfl, hwaits⟩, hcount⟩)
    · obtain ⟨hfresh, s, hs, rfl, hgone⟩ := (h.ready x).1 hx
      exact ⟨hfresh, s, hs, rfl, fun q hq => List.mem_append_left _ (hgone q hq)⟩
    · exact ⟨huntaken s hs hwaits, s, hs, rfl, (h.count_le_one_iff hp hs (hnodup s hs) hwaits).1 hcount⟩
  · rintro ⟨hfresh, s, hs, rfl, hgone⟩
    by_cases hwaits : p ∈ waits s
    · exact .inr ⟨⟨s, hs, rfl, hwaits⟩, (h.count_le_one_iff hp hs (hnodup s hs) hwaits).2 hgone⟩
    · have hbefore : ∀ q ∈ waits s, q ∈ gone := by
        intro q hq
        rcases List.mem_append.1 (hgone q hq) with hq' | hq'
        · exact hq'
        · exact absurd (List.mem_singleton.1 hq' ▸ hq) hwaits
      exact .inl ((h.ready (key s)).2 ⟨hfresh, s, hs, rfl, hbefore⟩)

/-- **Lowering those that wait for one that is gone now keeps the book true.**  Nobody who waits for it
has been taken before, and no count falls below zero. -/
theorem Tells.lower (h : w.Tells key waits all taken gone) (hall : (all.map key).Nodup)
    (hnodup : ∀ s ∈ all, (waits s).Nodup) (hp : p ∉ gone)
    (huntaken : ∀ s ∈ all, p ∈ waits s → key s ∉ taken) {l : List ℕ} (hl : l.Nodup)
    (hmem : ∀ x, x ∈ l ↔ ∃ s ∈ all, key s = x ∧ p ∈ waits s) :
    Tells key waits all taken (gone ++ [p]) (l.foldl Waiting.lower w) ∧
      l.foldlM Waiting.lower? w = some (l.foldl Waiting.lower w) := by
  obtain ⟨hsorted, hcounts, hready⟩ := foldl_lower hl w h.sorted
  refine ⟨⟨fun s hs => ?_, fun x => ?_, hsorted⟩, foldlM_lower? hl w fun x hx => ?_⟩
  · have hlowered : key s ∈ l ↔ p ∈ waits s := by
      refine (hmem _).trans ⟨?_, fun hwaits => ⟨s, hs, rfl, hwaits⟩⟩
      rintro ⟨t, ht, hkey, hwaits⟩
      rwa [← List.inj_on_of_nodup_map hall ht hs hkey]
    rw [hcounts, length_filter_gone (hnodup s hs) hp]
    by_cases hwaits : p ∈ waits s
    · rw [if_pos (hlowered.2 hwaits), if_pos hwaits, h.counts s hs]
      rfl
    · rw [if_neg (mt hlowered.1 hwaits), if_neg hwaits, h.counts s hs]
  · rw [hready, hmem]
    exact h.ready_iff_lower hp hnodup huntaken x
  · obtain ⟨s, hs, rfl, hwaits⟩ := (hmem x).1 hx
    exact h.lookup_ne_zero hp hs hwaits

end Waiting

end Provenance.Order
