import Mathlib.Data.Set.Finite.Lemmas
import Provenance.Proofs.Survey

/-!
# Who wins an address

Handles that were declared on their own may share an address and name different steps.  A survey lets
them contest the address while it follows them: a later step that replaces wins, and two steps of which
the later does not are a conflict.  Only the inputs of winners are followed.  So what is met, and which
conflicts come up, may depend on the order in which the terminals are listed.

To say when it does not, take all handles that could be met (`Met`) and the steps that they name
(`Contends`), and on the other side those handles that are met in any order (`Sure`), since they are
terminals or inputs of a step that no other contender is newer than.

* If all disputes end well, since each later contender replaces the earlier ones, and the newest
  contender for an address that is sure to come up is named by a handle that is sure to come up, then the
  survey succeeds and settles on exactly the newest contenders (`Decided.lookup_prune_iff`).
* If some sure handles name different steps for an address and the newest of them does not replace, the
  survey fails (`Disputed.not_follow`).

Neither condition knows the order of the terminals.
-/

namespace Provenance.Survey

/-! ## 1.  Contenders -/

section

variable (names : Asset → Option Step) (terminals : List Asset)

/-- The handles that the terminals lead to, whichever steps win. -/
inductive Met : Asset → Prop
  | terminal {a : Asset} : a ∈ terminals → Met a
  | input {a : Asset} {s : Step} {i : String × Asset} :
      Met a → names a = some s → i ∈ s.inputs → Met i.2

/-- A step that is named for an address. -/
def Contends (x : Address) (s : Step) : Prop :=
  ∃ a, Met names terminals a ∧ a.address = x ∧ names a = some s

/-- The contender for an address that was declared last. -/
structure Newest (x : Address) (s : Step) : Prop where
  contends : Contends names terminals x s
  le : ∀ t, Contends names terminals x t → t.id ≤ s.id

/-- The handles that are met in whatever order the terminals are listed. -/
inductive Sure : Asset → Prop
  | terminal {a : Asset} : a ∈ terminals → Sure a
  | input {a : Asset} {s : Step} {i : String × Asset} : Sure a → names a = some s →
      Newest names terminals a.address s → i ∈ s.inputs → Sure i.2

/-- All disputes end well: later contenders replace earlier ones, and where an address is sure to come
up, the newest contender is sure to come up as well. -/
structure Decided : Prop where
  replaces : ∀ x s t, Contends names terminals x s → Contends names terminals x t → s.id < t.id →
    t.replaces = true
  named : ∀ a n, Sure names terminals a → Newest names terminals a.address n →
    ∃ b, Sure names terminals b ∧ b.address = a.address ∧ names b = some n

/-- A dispute that cannot end well: it is sure to come up, and the newest contender does not replace. -/
def Disputed : Prop :=
  ∃ a b s t, Sure names terminals a ∧ Sure names terminals b ∧ a.address = b.address ∧
    names a = some s ∧ names b = some t ∧ s ≠ t ∧ Newest names terminals b.address t ∧
      t.replaces = false

end

section

variable {names : Asset → Option Step} {terminals terminals' : List Asset} {a : Asset}

theorem Sure.met (h : Sure names terminals a) : Met names terminals a := by
  induction h with
  | terminal ha => exact .terminal ha
  | input _ hs _ hi ih => exact .input ih hs hi

theorem Met.contends (h : Met names terminals a) {s : Step} (hs : names a = some s) :
    Contends names terminals a.address s := ⟨a, h, rfl, hs⟩

/-- Handles that are closed under inputs are all that can be met. -/
theorem Met.mem_of_closed {handles : List Asset} (hterminals : ∀ t ∈ terminals, t ∈ handles)
    (hclosed : ∀ b ∈ handles, ∀ s, names b = some s → ∀ i ∈ s.inputs, i.2 ∈ handles)
    (h : Met names terminals a) : a ∈ handles := by
  induction h with
  | terminal ha => exact hterminals _ ha
  | input _ hs hi ih => exact hclosed _ ih _ hs _ hi

theorem Met.mono (hsub : ∀ t ∈ terminals, t ∈ terminals') (h : Met names terminals a) :
    Met names terminals' a := by
  induction h with
  | terminal ha => exact .terminal (hsub _ ha)
  | input _ hs hi ih => exact .input ih hs hi

/-- Where handles to one address name one step, if any, there are no disputes. -/
theorem decided_of_agree (h : ∀ a b, Met names terminals a → Met names terminals b →
    a.address = b.address → names a = names b) : Decided names terminals where
  replaces := by
    rintro x s t ⟨a, ha, rfl, hs⟩ ⟨b, hb, haddress, ht⟩ hlt
    have heq := h a b ha hb haddress.symm
    rw [hs, ht] at heq
    exact absurd hlt (Option.some.inj heq ▸ Nat.lt_irrefl _)
  named := by
    rintro a n ha ⟨⟨b, hb, haddress, hn⟩, -⟩
    exact ⟨a, ha, rfl, (h a b ha.met hb haddress.symm).trans hn⟩

/-- Where handles to one address name one step, if any, that step is the newest contender. -/
theorem newest_iff_of_agree (h : ∀ a b, Met names terminals a → Met names terminals b →
    a.address = b.address → names a = names b) (ha : Met names terminals a) {n : Step} :
    Newest names terminals a.address n ↔ names a = some n := by
  have hnames : ∀ t, Contends names terminals a.address t → names a = some t := by
    rintro t ⟨b, hb, haddress, ht⟩
    exact (h a b ha hb haddress.symm).trans ht
  refine ⟨fun hn => hnames n hn.contends, fun hn => ⟨ha.contends hn, fun t ht => ?_⟩⟩
  exact Nat.le_of_eq (congrArg Step.id (Option.some.inj ((hnames t ht).symm.trans hn)))

section

variable (hmem : ∀ t, t ∈ terminals ↔ t ∈ terminals')

include hmem

theorem contends_congr {x : Address} {s : Step} :
    Contends names terminals x s ↔ Contends names terminals' x s :=
  exists_congr fun _ => and_congr_left fun _ => ⟨Met.mono fun t => (hmem t).1, Met.mono fun t => (hmem t).2⟩

theorem newest_congr {x : Address} {s : Step} :
    Newest names terminals x s ↔ Newest names terminals' x s := by
  constructor
  · exact fun h => ⟨(contends_congr hmem).1 h.contends, fun t ht => h.le t ((contends_congr hmem).2 ht)⟩
  · exact fun h => ⟨(contends_congr hmem).2 h.contends, fun t ht => h.le t ((contends_congr hmem).1 ht)⟩

theorem Sure.of_mem_iff (h : Sure names terminals a) : Sure names terminals' a := by
  induction h with
  | terminal ha => exact .terminal ((hmem _).1 ha)
  | input _ hs hnewest hi ih => exact .input ih hs ((newest_congr hmem).1 hnewest) hi

/-- The order of the terminals does not matter for what is decided. -/
theorem Decided.of_mem_iff (h : Decided names terminals) : Decided names terminals' where
  replaces x s t hs ht := h.replaces x s t ((contends_congr hmem).2 hs) ((contends_congr hmem).2 ht)
  named a n ha hn := by
    obtain ⟨b, hb, haddress, hname⟩ :=
      h.named a n (ha.of_mem_iff fun t => (hmem t).symm) ((newest_congr hmem).2 hn)
    exact ⟨b, hb.of_mem_iff hmem, haddress, hname⟩

theorem Disputed.of_mem_iff (h : Disputed names terminals) : Disputed names terminals' := by
  obtain ⟨a, b, s, t, ha, hb, haddress, hs, ht, hne, hnewest, hplain⟩ := h
  exact ⟨a, b, s, t, ha.of_mem_iff hmem, hb.of_mem_iff hmem, haddress, hs, ht, hne,
    (newest_congr hmem).1 hnewest, hplain⟩

end

end

/-! ## 2.  Contests -/

/-- A step loses against itself and against a later one that replaces. -/
theorem standing_of_contest_false {x : Address} {standing : Option Step} {s : Step}
    (h : contest x standing s = .ok false) :
    ∃ old, standing = some old ∧ (old.id = s.id ∨ s.id < old.id ∧ old.replaces = true) := by
  unfold contest at h
  split at h
  · exact absurd h (by simp)
  · rename_i old
    refine ⟨old, rfl, ?_⟩
    split at h
    · rename_i hid
      exact .inl hid
    · rename_i hne
      split at h
      · split at h <;> exact absurd h (by simp)
      · rename_i hnot
        split at h
        · rename_i hreplaces
          exact .inr ⟨Nat.lt_of_le_of_ne (Nat.le_of_not_lt hnot) (Ne.symm hne), hreplaces⟩
        · exact absurd h (by simp)

/-- A step wins where none stands, and against an earlier one that it replaces. -/
theorem standing_of_contest_true {x : Address} {standing : Option Step} {s : Step}
    (h : contest x standing s = .ok true) :
    ∀ old, standing = some old → old.id < s.id ∧ s.replaces = true := by
  rintro old rfl
  unfold contest at h
  dsimp only at h
  split at h
  · exact absurd h (by simp)
  · split at h
    · rename_i hlt
      split at h
      · rename_i hreplaces
        exact ⟨hlt, hreplaces⟩
      · exact absurd h (by simp)
    · split at h <;> exact absurd h (by simp)

/-- Two steps are in conflict where the later one does not replace. -/
theorem standing_of_contest_error {x : Address} {standing : Option Step} {s : Step} {fault : Fault}
    (h : contest x standing s = .error fault) :
    ∃ old, standing = some old ∧
      (old.id < s.id ∧ s.replaces = false ∨ s.id < old.id ∧ old.replaces = false) := by
  unfold contest at h
  split at h
  · exact absurd h (by simp)
  · rename_i old
    refine ⟨old, rfl, ?_⟩
    split at h
    · exact absurd h (by simp)
    · rename_i hne
      split at h
      · rename_i hlt
        split at h
        · exact absurd h (by simp)
        · rename_i hplain
          exact .inl ⟨hlt, by simpa using hplain⟩
      · rename_i hnot
        split at h
        · exact absurd h (by simp)
        · rename_i hplain
          exact .inr ⟨Nat.lt_of_le_of_ne (Nat.le_of_not_lt hnot) (Ne.symm hne), by simpa using hplain⟩

/-- What is reported is that the address has a producer. -/
theorem exists_overwrite_of_contest {x : Address} {standing : Option Step} {s : Step} {fault : Fault}
    (h : contest x standing s = .error fault) : ∃ task, fault = .overwrite x.text task := by
  unfold contest at h
  split at h
  · exact absurd h (by simp)
  · split at h
    · exact absurd h (by simp)
    · split at h
      · split at h
        · exact absurd h (by simp)
        · exact ⟨_, (Except.error.inj h).symm⟩
      · split at h
        · exact absurd h (by simp)
        · exact ⟨_, (Except.error.inj h).symm⟩

/-! ## 3.  The walk -/

/-- How far a survey has come.  The handles that are `done` were met, and the steps that they name have
lost or stand; every step that stands was named, and its inputs are done or still on the worklist. -/
structure Pursued (c : Catalog) (alive : List StepId) (terminals done : List Asset) (v : Survey)
    (work : List Asset) : Prop where
  met : ∀ a ∈ done ++ work, Met (c.producer? alive) terminals a
  terminals : ∀ a ∈ terminals, a ∈ done ++ work
  judged : ∀ a ∈ done, ∀ s, c.producer? alive a = some s →
    ∃ t, v.producers.lookup a.address = some t ∧ (t = s ∨ s.id < t.id ∧ t.replaces = true)
  standing : ∀ x t, v.producers.lookup x = some t →
    t.id ∈ v.expanded ∧ ∃ a ∈ done, a.address = x ∧ c.producer? alive a = some t
  inputs : ∀ id ∈ v.expanded, ∀ s, c.step? id = some s → ∀ i ∈ s.inputs, i.2 ∈ done ++ work

section

variable {c : Catalog} {alive : List StepId} {terminals done work : List Asset} {v : Survey}

/-- Handles name steps of the catalog, which are known by their numbers. -/
theorem eq_of_id_eq_of_named {a b : Asset} {s t : Step} (hs : c.producer? alive a = some s)
    (ht : c.producer? alive b = some t) (h : s.id = t.id) : s = t := by
  have hstep := Catalog.step?_of_producer? hs
  rw [h, Catalog.step?_of_producer? ht] at hstep
  exact (Option.some.inj hstep).symm

theorem pursued_start (c : Catalog) (alive : List StepId) (terminals : List Asset) :
    Pursued c alive terminals [] empty terminals where
  met _ ha := .terminal ha
  terminals _ ha := ha
  judged := by simp
  standing := by simp [empty]
  inputs := by simp [empty]

theorem mem_done_cons {a b : Asset} (h : b ∈ done ++ a :: work) (more : List Asset) :
    b ∈ a :: done ++ (more ++ work) := by
  simp only [List.mem_append, List.mem_cons] at h ⊢
  tauto

/-- A turn in which no step wins. -/
theorem Pursued.skip {a : Asset} (h : Pursued c alive terminals done v (a :: work))
    (hlost : ∀ s, c.producer? alive a = some s →
      contest a.address (v.producers.lookup a.address) s = .ok false) :
    Pursued c alive terminals (a :: done) { v with handles := merge a v.handles } work where
  met b hb := h.met b (by simp only [List.mem_append, List.mem_cons] at hb ⊢; tauto)
  terminals b hb := mem_done_cons (h.terminals b hb) []
  judged b hb s hs := by
    rcases List.mem_cons.1 hb with rfl | hb
    · obtain ⟨old, hold, hcase⟩ := standing_of_contest_false (hlost s hs)
      refine ⟨old, hold, hcase.imp_left fun hid => ?_⟩
      obtain ⟨-, b', -, -, hname⟩ := h.standing _ old hold
      exact eq_of_id_eq_of_named hname hs hid
    · exact h.judged b hb s hs
  standing x t ht := by
    obtain ⟨hexpanded, b, hb, hname⟩ := h.standing x t ht
    exact ⟨hexpanded, b, List.mem_cons_of_mem _ hb, hname⟩
  inputs id hid s hs i hi := mem_done_cons (h.inputs id hid s hs i hi) []

/-- A turn in which the step of a handle wins. -/
theorem Pursued.win {a : Asset} {s : Step} (h : Pursued c alive terminals done v (a :: work))
    (hs : c.producer? alive a = some s)
    (hwon : contest a.address (v.producers.lookup a.address) s = .ok true) {expanded : List StepId}
    (more : List Asset) (hexpanded : ∀ id, id ∈ expanded ↔ id = s.id ∨ id ∈ v.expanded)
    (hmore : ∀ b ∈ more, ∃ i ∈ s.inputs, i.2 = b)
    (hinputs : s.id ∉ v.expanded → more = s.inputs.map (·.2)) :
    Pursued c alive terminals (a :: done)
      ⟨merge a v.handles, assign a.address s v.producers, expanded⟩ (more ++ work) := by
  have ha : Met (c.producer? alive) terminals a := h.met a (by simp)
  have hlookup : ∀ x, (assign a.address s v.producers).lookup x =
      if x = a.address then some s else v.producers.lookup x :=
    fun x => lookup_assign a.address x s v.producers
  constructor
  case met =>
    intro b hb
    rcases List.mem_append.1 hb with hb | hb
    · exact h.met b (by simp only [List.mem_append, List.mem_cons] at hb ⊢; tauto)
    · rcases List.mem_append.1 hb with hb | hb
      · obtain ⟨i, hi, rfl⟩ := hmore b hb
        exact ha.input hs hi
      · exact h.met b (by simp only [List.mem_append, List.mem_cons]; tauto)
  case terminals => exact fun b hb => mem_done_cons (h.terminals b hb) more
  case judged =>
    intro b hb t ht
    rw [hlookup]
    rcases List.mem_cons.1 hb with rfl | hb
    · rw [hs] at ht
      exact ⟨s, if_pos rfl, .inl (Option.some.inj ht)⟩
    · obtain ⟨old, hold, hcase⟩ := h.judged b hb t ht
      by_cases haddress : b.address = a.address
      · -- the winner is later than what stood, which was not earlier than the step of `b`
        rw [haddress] at hold
        obtain ⟨hlt, hreplaces⟩ := standing_of_contest_true hwon old hold
        refine ⟨s, if_pos haddress, .inr ⟨?_, hreplaces⟩⟩
        rcases hcase with rfl | ⟨hle, -⟩
        · exact hlt
        · exact Nat.lt_trans hle hlt
      · exact ⟨old, (if_neg haddress).trans hold, hcase⟩
  case standing =>
    intro x t ht
    rw [hlookup] at ht
    by_cases hx : x = a.address
    · rw [if_pos hx] at ht
      obtain rfl := Option.some.inj ht
      exact ⟨(hexpanded _).2 (.inl rfl), a, List.mem_cons_self, hx.symm, hs⟩
    · rw [if_neg hx] at ht
      obtain ⟨hid, b, hb, hname⟩ := h.standing x t ht
      exact ⟨(hexpanded _).2 (.inr hid), b, List.mem_cons_of_mem _ hb, hname⟩
  case inputs =>
    intro id hid t ht i hi
    by_cases hold : id ∈ v.expanded
    · exact mem_done_cons (h.inputs id hold t ht i hi) more
    · obtain rfl := ((hexpanded id).1 hid).resolve_right hold
      rw [Catalog.step?_of_producer? hs] at ht
      obtain rfl := Option.some.inj ht
      rw [hinputs hold]
      exact List.mem_append_right _ (List.mem_append_left _ (List.mem_map.2 ⟨i, hi, rfl⟩))

/-- Every turn keeps track. -/
theorem kept_pursued (c : Catalog) (alive : List StepId) (terminals : List Asset) :
    Kept c alive fun v work => ∃ done, Pursued c alive terminals done v work where
  skip := by
    rintro v a work ⟨done, h⟩ hlost
    exact ⟨a :: done, h.skip hlost⟩
  win := by
    rintro v a work s ⟨done, h⟩ hs hwon hold
    refine ⟨a :: done, h.win hs hwon [] (fun id => ⟨.inr, ?_⟩) (by simp) fun hfresh => absurd hold hfresh⟩
    rintro (rfl | hid)
    · exact hold
    · exact hid
  new := by
    rintro v a work s ⟨done, h⟩ hs hwon _
    exact ⟨a :: done, h.win hs hwon _ (fun id => List.mem_cons) (fun b hb => List.mem_map.1 hb) fun _ => rfl⟩

theorem pursued_of_follow (h : follow c alive empty terminals = .ok v) :
    ∃ done, Pursued c alive terminals done v [] :=
  follow_induct (kept_pursued c alive terminals) h ⟨[], pursued_start c alive terminals⟩

end

/-! ## 4.  What is settled on -/

section

variable {c : Catalog} {alive : List StepId} {terminals done work : List Asset} {u v : Survey}

/-- Where an address has contenders, one of them is the newest. -/
theorem exists_newest {x : Address} {s : Step} (hs : Contends (c.producer? alive) terminals x s) :
    ∃ n, Newest (c.producer? alive) terminals x n := by
  have hfinite : {t | Contends (c.producer? alive) terminals x t}.Finite := by
    refine (List.finite_toSet c.steps).subset ?_
    rintro t ⟨a, -, -, hname⟩
    exact Catalog.mem_of_producer? hname
  obtain ⟨n, hn, hmax⟩ := Set.exists_max_image _ (·.id) hfinite ⟨s, hs⟩
  exact ⟨n, hn, hmax⟩

/-- Where the newest contender was met, it stands. -/
theorem Pursued.standing_newest (h : Pursued c alive terminals done v work) {b : Asset} {n : Step}
    (hb : b ∈ done) (hname : c.producer? alive b = some n)
    (hnewest : Newest (c.producer? alive) terminals b.address n) :
    v.producers.lookup b.address = some n := by
  obtain ⟨t, ht, heq | ⟨hlt, -⟩⟩ := h.judged b hb n hname
  · rwa [← heq]
  · obtain ⟨-, a, ha, haddress, hnamed⟩ := h.standing _ t ht
    have hmet := h.met a (List.mem_append_left _ ha)
    exact absurd (hnewest.le t ⟨a, hmet, haddress, hnamed⟩) (Nat.not_le_of_lt hlt)

/-- In a walk that is over, all handles that are sure were met. -/
theorem Pursued.mem_done (h : Pursued c alive terminals done u []) {a : Asset}
    (ha : Sure (c.producer? alive) terminals a) : a ∈ done := by
  have hdone : ∀ {b}, b ∈ done ++ [] → b ∈ done := fun hb => by rwa [List.append_nil] at hb
  induction ha with
  | terminal ha => exact hdone (h.terminals _ ha)
  | input _ hs hnewest hi ih =>
    obtain ⟨hexpanded, -⟩ := h.standing _ _ (h.standing_newest ih hs hnewest)
    exact hdone (h.inputs _ hexpanded _ (Catalog.step?_of_producer? hs) _ hi)

/-- What is sure to come up lies behind the terminals. -/
theorem Pursued.behind_of_sure (h : Pursued c alive terminals done u []) {a : Asset}
    (ha : Sure (c.producer? alive) terminals a) : u.Behind terminals a.address := by
  induction ha with
  | terminal ha => exact .of_mem ha
  | @input a s i ha hs hnewest hi ih =>
    exact ih.reads ⟨s, h.standing_newest (h.mem_done ha) hs hnewest, i, hi, rfl⟩

/-- **A survey in which all disputes end well succeeds.** -/
theorem Decided.exists_follow (hd : Decided (c.producer? alive) terminals) :
    ∃ u, follow c alive empty terminals = .ok u := by
  cases hfollow : follow c alive empty terminals with
  | ok u => exact ⟨u, rfl⟩
  | error fault =>
    obtain ⟨w, a, rest, s, ⟨done, h⟩, hs, hcontest⟩ := exists_contest_of_follow
      (kept_pursued c alive terminals) hfollow ⟨[], pursued_start c alive terminals⟩
    obtain ⟨old, hold, hconflict⟩ := standing_of_contest_error hcontest
    obtain ⟨-, b, hb, haddress, hname⟩ := h.standing _ old hold
    have hnew : Contends (c.producer? alive) terminals a.address s := ⟨a, h.met a (by simp), rfl, hs⟩
    have hstood : Contends (c.producer? alive) terminals a.address old :=
      ⟨b, h.met b (List.mem_append_left _ hb), haddress, hname⟩
    rcases hconflict with ⟨hlt, hplain⟩ | ⟨hlt, hplain⟩
    · exact absurd (hd.replaces _ _ _ hstood hnew hlt) (by simp [hplain])
    · exact absurd (hd.replaces _ _ _ hnew hstood hlt) (by simp [hplain])

/-- Where all disputes end well, the newest contender stands wherever an address is sure to come up. -/
theorem Decided.lookup_iff (hd : Decided (c.producer? alive) terminals)
    (h : Pursued c alive terminals done u []) {a : Asset} (ha : Sure (c.producer? alive) terminals a)
    {t : Step} : u.producers.lookup a.address = some t ↔
      Newest (c.producer? alive) terminals a.address t := by
  have hstands : ∀ n, Newest (c.producer? alive) terminals a.address n →
      u.producers.lookup a.address = some n := by
    intro n hn
    obtain ⟨b, hb, haddress, hname⟩ := hd.named a n ha hn
    rw [← haddress] at hn ⊢
    exact h.standing_newest (h.mem_done hb) hname hn
  refine ⟨fun ht => ?_, hstands t⟩
  obtain ⟨-, b, hb, haddress, hname⟩ := h.standing _ t ht
  obtain ⟨n, hn⟩ := exists_newest (x := a.address)
    ⟨b, h.met b (List.mem_append_left _ hb), haddress, hname⟩
  rwa [Option.some.inj (ht.symm.trans (hstands n hn))]

/-- Where all disputes end well, nothing lies behind the terminals but what is sure to come up. -/
theorem Decided.behind_iff (hd : Decided (c.producer? alive) terminals)
    (h : Pursued c alive terminals done u []) {x : Address} :
    u.Behind terminals x ↔ ∃ a, Sure (c.producer? alive) terminals a ∧ a.address = x := by
  constructor
  · rintro ⟨t, ht, hpath⟩
    induction hpath with
    | refl => exact ⟨t, .terminal ht, rfl⟩
    | tail _ hreads ih =>
      obtain ⟨a, ha, rfl⟩ := ih
      obtain ⟨s, hs, i, hi, rfl⟩ := hreads
      have hnewest := (hd.lookup_iff h ha).1 hs
      obtain ⟨b, hb, haddress, hname⟩ := hd.named a s ha hnewest
      exact ⟨i.2, hb.input hname (haddress ▸ hnewest) hi, rfl⟩
  · rintro ⟨a, ha, rfl⟩
    exact h.behind_of_sure ha

/-- **Where all disputes end well, the survey settles on the newest contenders** for what is sure to come
up, and on nothing else. -/
theorem Decided.lookup_prune_iff (hd : Decided (c.producer? alive) terminals)
    (h : follow c alive empty terminals = .ok u) {x : Address} {t : Step} :
    (prune (terminals.map (·.address)) u).producers.lookup x = some t ↔
      (∃ a, Sure (c.producer? alive) terminals a ∧ a.address = x) ∧
        Newest (c.producer? alive) terminals x t := by
  obtain ⟨done, hpursued⟩ := pursued_of_follow h
  rw [Survey.lookup_prune_iff, hd.behind_iff hpursued]
  refine and_congr_right ?_
  rintro ⟨a, ha, rfl⟩
  exact hd.lookup_iff hpursued ha

/-- **A dispute that cannot end well makes every survey fail**, with the report of a conflict. -/
theorem Disputed.not_follow (hd : Disputed (c.producer? alive) terminals) :
    ∃ address task, follow c alive empty terminals = .error (.overwrite address task) := by
  cases hfollow : follow c alive empty terminals with
  | error fault =>
    obtain ⟨w, a, rest, s, -, -, hcontest⟩ := exists_contest_of_follow
      (kept_pursued c alive terminals) hfollow ⟨[], pursued_start c alive terminals⟩
    obtain ⟨task, rfl⟩ := exists_overwrite_of_contest hcontest
    exact ⟨_, task, rfl⟩
  | ok u =>
    obtain ⟨done, h⟩ := pursued_of_follow hfollow
    obtain ⟨a, b, s, t, ha, hb, haddress, hs, ht, hne, hnewest, hplain⟩ := hd
    have hstands := h.standing_newest (h.mem_done hb) ht hnewest
    obtain ⟨r, hr, hcase⟩ := h.judged a (h.mem_done ha) s hs
    rw [haddress, hstands] at hr
    obtain rfl := Option.some.inj hr
    rcases hcase with heq | ⟨-, hreplaces⟩
    · exact absurd heq.symm hne
    · exact absurd hreplaces (by simp [hplain])

end

end Provenance.Survey
