import Mathlib.Data.Nat.Basic
import Mathlib.Tactic.IntervalCases
import Provenance.Cron
import Provenance.Proofs.Cron.Writing

/-!
# The same weekdays for another scheduler

A part of a weekday field goes through some days, from its first one on, and keeps every n-th of them
(`Part.Means`).  Moving the days to the week that starts with Sunday as 1 leaves the days in their order, so
a part that does not run past Saturday keeps its length and its step, and one that does is cut in two behind
Saturday (`Part.means_shift`).

So a schedule falls on the days that its line means (`falls_of_eventBridge`), with one exception.  The days
are moved before the ends of a part are compared, and Sunday as 7 is moved to where Sunday as 0 is.  From
Sunday to Sunday is every day as long as the ends are 0 and 7, but only Sunday when both are 1
(`eventBridge_sunday_to_sunday`).
-/

namespace Provenance.Cron

/-! ## What is meant -/

namespace Part

/-- The day with which a part begins. -/
def first (sunday : ℕ) (p : Part) : ℕ :=
  match p.days with
  | .every => sunday
  | .one day => day
  | .span first _ => first

/-- The number of days that a part goes through.  One day that carries a step goes on to the end of the
week, and days that end before they begin go on past Saturday. -/
def length (sunday : ℕ) (p : Part) : ℕ :=
  match p.days with
  | .every => 7
  | .one day => if p.step = none then 1 else sunday + 7 - day
  | .span first last => if first ≤ last then last - first + 1 else last + 7 - first + 1

/-- The days after Sunday that a part means: of the days that it goes through, every n-th, counted from the
first. -/
def Means (sunday : ℕ) (p : Part) (day : ℕ) : Prop :=
  ∃ i < p.length sunday, p.step.getD 1 ∣ i ∧ (p.first sunday - sunday + i) % 7 = day

instance (sunday : ℕ) (p : Part) (day : ℕ) : Decidable (p.Means sunday day) :=
  inferInstanceAs (Decidable (∃ i < p.length sunday, _))

/-- A step may not carry days on past Saturday. -/
def Wraps (p : Part) : Prop := ∃ first last n, p = ⟨.span first last, some n⟩ ∧ last % 7 < first % 7

/-- Every day of a part is a day of the week. -/
def InWeek (sunday : ℕ) (p : Part) : Prop :=
  match p.days with
  | .every => True
  | .one day => sunday ≤ day ∧ day ≤ 7
  | .span first last => (sunday ≤ first ∧ first ≤ 7) ∧ sunday ≤ last ∧ last ≤ 7

end Part

/-- The days after Sunday on which a weekday field falls. -/
def Denotes (sunday : ℕ) (field : String) (day : ℕ) : Prop :=
  ∃ parts, Written sunday field parts ∧ ∃ p ∈ parts, p.Means sunday day

/-- The days after Sunday on which a weekday field of EventBridge falls; a question mark restricts
nothing. -/
def Falls (field : String) (day : ℕ) : Prop := (field = "?" ∧ day < 7) ∨ Denotes 1 field day

variable {sunday day : ℕ} {field : String} {parts shifted : List Part} {p : Part}

theorem denotes_iff (h : Written sunday field parts) :
    Denotes sunday field day ↔ ∃ p ∈ parts, p.Means sunday day := by
  refine ⟨?_, fun hday => ⟨parts, h, hday⟩⟩
  rintro ⟨parts', h', hday⟩
  rwa [h.unique h']

/-! ## Days that are moved -/

theorem DayWritten.le_seven {token : String} (h : DayWritten 0 day token) : day ≤ 7 := by
  cases h with
  | number _ _ hday => exact hday
  | @name _ i hname =>
    have hi : i < 7 := (List.getElem?_eq_some_iff.1 hname).1
    omega

theorem Written.ne_nil (h : Written sunday field parts) : parts ≠ [] := by
  rintro rfl
  obtain ⟨texts, hne, hparts, -⟩ := h
  exact hne (List.forall₂_nil_right_iff.1 hparts)

namespace Part

theorem Written.inWeek {text : String} (h : p.Written 0 text) : p.InWeek 0 := by
  obtain ⟨days, step⟩ := p
  obtain ⟨s, hdays⟩ : ∃ s, days.Written 0 s := by
    cases step with
    | none => exact ⟨text, h⟩
    | some n => exact ⟨h.choose, h.choose_spec.choose_spec.2.1⟩
  cases days with
  | every => trivial
  | one day => exact ⟨Nat.zero_le _, DayWritten.le_seven hdays⟩
  | span first last =>
    obtain ⟨_, _, -, hfirst, hlast⟩ := hdays
    exact ⟨⟨Nat.zero_le _, hfirst.le_seven⟩, Nat.zero_le _, hlast.le_seven⟩

end Part

theorem Written.inWeek (h : Written 0 field parts) : ∀ p ∈ parts, p.InWeek 0 := by
  obtain ⟨texts, hne, hparts, -⟩ := h
  clear hne
  induction hparts with
  | nil => exact fun _ hmem => absurd hmem List.not_mem_nil
  | cons hpart _ ih => exact List.forall_mem_cons.2 ⟨hpart.inWeek, ih⟩

namespace Part

variable {a b : ℕ}

theorem shift_span (h : a % 7 ≤ b % 7) (step : Option ℕ) :
    shift ⟨.span a b, step⟩ = some [⟨.span (fromOne a) (fromOne b), step⟩] :=
  if_pos (Nat.succ_le_succ h)

theorem shift_wrapped (h : b % 7 < a % 7) : shift ⟨.span a b, none⟩ =
    some [upTo (fromOne a) 7 (fromOne a == 7), upTo 1 (fromOne b) (fromOne b == 1)] :=
  if_neg (Nat.not_le_of_lt (Nat.succ_lt_succ h))

/-- Only days with a step that run past Saturday cannot be moved. -/
theorem shift_eq_none_iff : p.shift = none ↔ p.Wraps := by
  obtain ⟨days, step⟩ := p
  cases days with
  | every => cases step <;> simp [shift, Wraps]
  | one day => simp [shift, Wraps]
  | span a b =>
    rcases Nat.lt_or_ge (b % 7) (a % 7) with hwrap | hspan
    · cases step with
      | none => simp [shift_wrapped hwrap, Wraps]
      | some n =>
        have hnone : shift ⟨.span a b, some n⟩ = none :=
          if_neg (Nat.not_le_of_lt (Nat.succ_lt_succ hwrap))
        exact iff_of_true hnone ⟨a, b, n, rfl, hwrap⟩
    · simp only [shift_span hspan, Wraps, mk.injEq, Days.span.injEq, reduceCtorEq, false_iff]
      rintro ⟨_, _, _, ⟨⟨rfl, rfl⟩, -⟩, hwrap⟩
      exact Nat.not_le_of_lt hwrap hspan

/-- What comes of a part whose days are moved. -/
inductive Moved : Part → List Part → Prop
  | every : Moved ⟨.every, none⟩ [⟨.every, none⟩]
  | nth {n : ℕ} : Moved ⟨.every, some n⟩ [⟨.one 1, some n⟩]
  | one {d : ℕ} {step : Option ℕ} : Moved ⟨.one d, step⟩ [⟨.one (fromOne d), step⟩]
  | span {a b : ℕ} {step : Option ℕ} : a % 7 ≤ b % 7 →
      Moved ⟨.span a b, step⟩ [⟨.span (fromOne a) (fromOne b), step⟩]
  | wrapped {a b : ℕ} : b % 7 < a % 7 → Moved ⟨.span a b, none⟩
      [upTo (fromOne a) 7 (fromOne a == 7), upTo 1 (fromOne b) (fromOne b == 1)]

theorem moved_of_shift (h : p.shift = some shifted) : Moved p shifted := by
  obtain ⟨days, step⟩ := p
  cases days with
  | every =>
    cases step with
    | none => exact Option.some.inj h ▸ .every
    | some n => exact Option.some.inj h ▸ .nth
  | one d => exact Option.some.inj h ▸ .one
  | span a b =>
    rcases Nat.lt_or_ge (b % 7) (a % 7) with hwrap | hspan
    · cases step with
      | none => exact Option.some.inj ((shift_wrapped hwrap).symm.trans h) ▸ .wrapped hwrap
      | some n =>
        have hnone := shift_eq_none_iff.2 ⟨a, b, n, rfl, hwrap⟩
        exact absurd (hnone.symm.trans h) (Option.some_ne_none _).symm
    · exact Option.some.inj ((shift_span hspan step).symm.trans h) ▸ .span hspan

/-- Parts that begin with the same day, are as long as each other and have the same step mean the same. -/
theorem means_congr {q : Part} (hlength : q.length 1 = p.length 0) (hstep : q.step = p.step)
    (hfirst : (q.first 1 - 1) % 7 = p.first 0 % 7) : q.Means 1 day ↔ p.Means 0 day := by
  unfold Means
  rw [hlength, hstep]
  refine exists_congr fun i => and_congr_right fun _ => and_congr_right fun _ => ?_
  rw [Nat.add_mod, hfirst, ← Nat.add_mod, Nat.sub_zero]

/-- From Sunday to Sunday is only Sunday where both have the same number. -/
theorem means_sunday (step : Option ℕ) :
    Means 1 ⟨.span 1 1, step⟩ day ↔ Means 0 ⟨.span 0 7, step⟩ day ∧ day = 0 := by
  constructor
  · rintro ⟨i, hi, -, rfl⟩
    obtain rfl : i = 0 := Nat.lt_one_iff.1 hi
    exact ⟨⟨0, Nat.zero_lt_succ 7, dvd_zero _, rfl⟩, rfl⟩
  · rintro ⟨-, rfl⟩
    exact ⟨0, Nat.zero_lt_one, dvd_zero _, rfl⟩

/-- One day may stand for days that begin and end with it. -/
theorem means_upTo {single : Bool} (h : a ≤ b) (hsingle : single = true → a = b) :
    (upTo a b single).Means 1 day ↔ ∃ i < b - a + 1, (a - 1 + i) % 7 = day := by
  cases single with
  | true =>
    obtain rfl := hsingle rfl
    simp [upTo, Means, length, first]
  | false => simp [upTo, Means, length, first, h]

/-- **Days that run past Saturday are the days up to Saturday and the days from Sunday on.** -/
theorem means_wrapped (ha : a ≤ 7) (hb : b ≤ 7) (hwrap : b % 7 < a % 7) :
    Means 0 ⟨.span a b, none⟩ day ↔ (upTo (fromOne a) 7 (fromOne a == 7)).Means 1 day ∨
      (upTo 1 (fromOne b) (fromOne b == 1)).Means 1 day := by
  have hlength : length 0 ⟨.span a b, none⟩ = 7 - a % 7 + (b % 7 + 1) := by
    simp only [length]
    split <;> omega
  rw [means_upTo (by unfold fromOne; omega) beq_iff_eq.1,
    means_upTo (by unfold fromOne; omega) fun h => (beq_iff_eq.1 h).symm, Means, hlength]
  simp only [Option.getD_none, one_dvd, true_and, first, fromOne]
  constructor
  · rintro ⟨i, hi, rfl⟩
    rcases Nat.lt_or_ge i (7 - a % 7) with hbefore | hbehind
    · exact .inl ⟨i, by omega, by omega⟩
    · exact .inr ⟨i - (7 - a % 7), by omega, by omega⟩
  · rintro (⟨i, hi, rfl⟩ | ⟨i, hi, rfl⟩)
    · exact ⟨i, by omega, by omega⟩
    · exact ⟨7 - a % 7 + i, by omega, by omega⟩

/-- Days that do not run past Saturday are as many after they are moved, unless they run from Sunday to
Sunday. -/
theorem length_shift (ha : a ≤ 7) (hb : b ≤ 7) (hspan : a % 7 ≤ b % 7) (hother : ¬ (a = 0 ∧ b = 7))
    (step : Option ℕ) :
    length 1 ⟨.span (fromOne a) (fromOne b), step⟩ = length 0 ⟨.span a b, step⟩ := by
  have hfrom : fromOne a ≤ fromOne b := Nat.succ_le_succ hspan
  simp only [length, if_pos hfrom]
  unfold fromOne
  split <;> omega

/-- **What a part means is kept when its days are moved**, but from Sunday to Sunday it becomes Sunday. -/
theorem means_shift (hweek : p.InWeek 0) (hform : ∀ day n, p ≠ ⟨.one day, some n⟩)
    (h : p.shift = some shifted) :
    (∃ q ∈ shifted, q.Means 1 day) ↔ p.Means 0 day ∧ (p.days = .span 0 7 → day = 0) := by
  cases moved_of_shift h with
  | every => simpa using means_congr (p := ⟨.every, none⟩) (q := ⟨.every, none⟩) rfl rfl rfl
  | @nth n => simpa using means_congr (p := ⟨.every, some n⟩) (q := ⟨.one 1, some n⟩) rfl rfl rfl
  | @one d step =>
    cases step with
    | none =>
      simpa using means_congr (p := ⟨.one d, none⟩) (q := ⟨.one (fromOne d), none⟩) rfl rfl
        (Nat.mod_mod d 7)
    | some n => exact absurd rfl (hform d n)
  | @span a b step hspan =>
    obtain ⟨⟨-, ha⟩, -, hb⟩ := hweek
    by_cases hsunday : a = 0 ∧ b = 7
    · obtain ⟨rfl, rfl⟩ := hsunday
      simpa [fromOne] using means_sunday step
    · have hother : Days.span a b ≠ .span 0 7 := by simpa using hsunday
      simpa [hother] using
        means_congr (p := ⟨.span a b, step⟩) (q := ⟨.span (fromOne a) (fromOne b), step⟩)
          (length_shift ha hb hspan hsunday step) rfl (Nat.mod_mod a 7)
  | @wrapped a b hwrap =>
    obtain ⟨⟨-, ha⟩, -, hb⟩ := hweek
    have hother : Days.span a b ≠ .span 0 7 := by
      rintro ⟨⟩
      exact absurd hwrap (by decide)
    simpa [hother] using (means_wrapped ha hb hwrap).symm

/-! ### The text of what is moved -/

/-- Days that are numbered from 1 are written as their numbers. -/
theorem written_text (hweek : p.InWeek 1) (hstep : p.StepAllowed) : p.Written 1 p.text := by
  have hnumber : ∀ n, 1 ≤ n → n ≤ 7 → Text.digits? (toString n).toList = some n := by
    intro n hone hseven
    interval_cases n <;> decide
  have hday : ∀ d, 1 ≤ d ∧ d ≤ 7 → DayWritten 1 d (toString d) := fun d hd =>
    .number (hnumber d hd.1 hd.2) hd.1 hd.2
  have hdays : p.days.Written 1 p.days.text := by
    obtain ⟨days, step⟩ := p
    cases days with
    | every => rfl
    | one d => exact hday d hweek
    | span a b => exact ⟨_, _, rfl, hday a hweek.1, hday b hweek.2⟩
  obtain ⟨days, step⟩ := p
  cases step with
  | none => exact hdays
  | some n => exact ⟨_, _, rfl, hdays, hnumber n (hstep n rfl).1 (hstep n rfl).2⟩

theorem inWeek_upTo {single : Bool} (ha : 1 ≤ a) (hb : b ≤ 7) (h : a ≤ b) :
    (upTo a b single).InWeek 1 ∧ (upTo a b single).StepAllowed := by
  refine ⟨?_, fun n hn => absurd hn (Option.some_ne_none n).symm⟩
  cases single with
  | true => exact ⟨ha, h.trans hb⟩
  | false => exact ⟨⟨ha, h.trans hb⟩, ha.trans h, hb⟩

/-- Days that are moved are days of the week that starts with Sunday as 1. -/
theorem inWeek_shift (hstep : p.StepAllowed) (h : p.shift = some shifted) :
    shifted ≠ [] ∧ ∀ q ∈ shifted, q.InWeek 1 ∧ q.StepAllowed := by
  have hfrom : ∀ d, 1 ≤ fromOne d ∧ fromOne d ≤ 7 := by
    unfold fromOne
    omega
  cases moved_of_shift h with
  | every => simpa using ⟨trivial, hstep⟩
  | nth => simpa using ⟨⟨Nat.le_refl 1, by decide⟩, hstep⟩
  | @one d step => simpa using ⟨hfrom d, hstep⟩
  | @span a b step _ => simpa using ⟨⟨hfrom a, hfrom b⟩, hstep⟩
  | @wrapped a b _ =>
    simpa using ⟨inWeek_upTo (hfrom a).1 le_rfl (hfrom a).2, inWeek_upTo le_rfl (hfrom b).2 (hfrom b).1⟩

end Part

/-! ## Fields that are moved -/

theorem shiftAll_cons_eq_some_iff : shiftAll (p :: parts) = some shifted ↔
    ∃ qs rest, p.shift = some qs ∧ shiftAll parts = some rest ∧ qs ++ rest = shifted := by
  simp only [shiftAll, List.mapM_cons]
  cases p.shift <;> cases parts.mapM Part.shift <;> simp

/-- A field can be moved if each of its parts can. -/
theorem exists_shiftAll_iff : (∃ shifted, shiftAll parts = some shifted) ↔ ∀ p ∈ parts, ¬ p.Wraps := by
  induction parts with
  | nil => simp [shiftAll]
  | cons p parts ih =>
    rw [List.forall_mem_cons, ← ih, ← Part.shift_eq_none_iff, ← ne_eq, Option.ne_none_iff_exists']
    constructor
    · rintro ⟨shifted, h⟩
      obtain ⟨qs, rest, hp, hrest, -⟩ := shiftAll_cons_eq_some_iff.1 h
      exact ⟨⟨qs, hp⟩, rest, hrest⟩
    · rintro ⟨⟨qs, hp⟩, rest, hrest⟩
      exact ⟨_, shiftAll_cons_eq_some_iff.2 ⟨qs, rest, hp, hrest, rfl⟩⟩

/-- What comes of the parts of a field comes of one of them. -/
theorem mem_shiftAll_iff (h : shiftAll parts = some shifted) {q : Part} :
    q ∈ shifted ↔ ∃ p ∈ parts, ∃ qs, p.shift = some qs ∧ q ∈ qs := by
  induction parts generalizing shifted with
  | nil =>
    obtain rfl : [] = shifted := Option.some.inj h
    simp
  | cons p parts ih =>
    obtain ⟨qs, rest, hp, hrest, rfl⟩ := shiftAll_cons_eq_some_iff.1 h
    simp [ih hrest, hp]

theorem exists_shift_of_mem (h : shiftAll parts = some shifted) (hp : p ∈ parts) :
    ∃ qs, p.shift = some qs ∧ ∀ q ∈ qs, q ∈ shifted := by
  have hwraps := exists_shiftAll_iff.1 ⟨shifted, h⟩ p hp
  rw [← Part.shift_eq_none_iff, ← ne_eq, Option.ne_none_iff_exists'] at hwraps
  obtain ⟨qs, hqs⟩ := hwraps
  exact ⟨qs, hqs, fun q hq => (mem_shiftAll_iff h).2 ⟨p, hp, qs, hqs, hq⟩⟩

/-- A field that is moved is written as its text. -/
theorem written_shiftAll (hfield : Written 0 field parts) (hstep : ∀ p ∈ parts, p.StepAllowed)
    (h : shiftAll parts = some shifted) : Written 1 (fieldText shifted) shifted := by
  refine ⟨shifted.map Part.text, ?_, ?_, rfl⟩
  · obtain ⟨p, hp⟩ := List.exists_mem_of_ne_nil parts hfield.ne_nil
    obtain ⟨qs, hqs, hsub⟩ := exists_shift_of_mem h hp
    obtain ⟨q, hq⟩ := List.exists_mem_of_ne_nil qs (Part.inWeek_shift (hstep p hp) hqs).1
    exact List.ne_nil_of_mem (List.mem_map_of_mem (hsub q hq))
  · rw [List.forall₂_map_left_iff, List.forall₂_same]
    intro q hq
    obtain ⟨p, hp, qs, hqs, hmem⟩ := (mem_shiftAll_iff h).1 hq
    obtain ⟨hweek, hallowed⟩ := (Part.inWeek_shift (hstep p hp) hqs).2 q hmem
    exact Part.written_text hweek hallowed

/-- What a field means is kept part by part. -/
theorem means_shiftAll (hfield : Written 0 field parts)
    (hforms : ∀ p ∈ parts, ∀ day n, p ≠ ⟨.one day, some n⟩) (h : shiftAll parts = some shifted) :
    (∃ q ∈ shifted, q.Means 1 day) ↔ ∃ p ∈ parts, p.Means 0 day ∧ (p.days = .span 0 7 → day = 0) := by
  constructor
  · rintro ⟨q, hq, hday⟩
    obtain ⟨p, hp, qs, hqs, hmem⟩ := (mem_shiftAll_iff h).1 hq
    exact ⟨p, hp, (Part.means_shift (hfield.inWeek p hp) (hforms p hp) hqs).1 ⟨q, hmem, hday⟩⟩
  · rintro ⟨p, hp, hday⟩
    obtain ⟨qs, hqs, hsub⟩ := exists_shift_of_mem h hp
    obtain ⟨q, hq, hq'⟩ := (Part.means_shift (hfield.inWeek p hp) (hforms p hp) hqs).2 hday
    exact ⟨q, hsub q hq, hq'⟩

/-! ## Schedules -/

section

variable {line minute hour month weekday : String}

/-- A star alone is written for every day. -/
theorem eq_every_of_written (h : Written 0 "*" parts) : parts = [⟨.every, none⟩] :=
  h.unique ⟨["*"], List.cons_ne_nil _ _, .cons rfl .nil, rfl⟩

theorem falls_question : Falls "?" day ↔ day < 7 := by
  have hnot : ¬ Denotes 1 "?" day := fun ⟨_, hwritten, _⟩ => not_written_question hwritten
  simp [Falls, hnot]

theorem means_every : Part.Means 0 ⟨.every, none⟩ day ↔ day < 7 := by
  constructor
  · rintro ⟨i, -, -, rfl⟩
    exact Nat.mod_lt _ (by decide)
  · exact fun hday => ⟨day, hday, one_dvd _, by simpa [Part.first] using Nat.mod_eq_of_lt hday⟩

theorem eventBridge?_of_star (hline : Text.words line = [minute, hour, "*", month, "*"]) :
    eventBridge? line =
      some ("cron(" ++ " ".intercalate [minute, hour, "*", month, "?", "*"] ++ ")") := by
  rw [eventBridge?, hline]
  rfl

theorem eventBridge?_eq_some_iff (hline : Text.words line = [minute, hour, "*", month, weekday])
    (hfield : Written 0 weekday parts) (hstar : weekday ≠ "*") {expression : String} :
    eventBridge? line = some expression ↔ (∀ p ∈ parts, p.StepAllowed) ∧
      ∃ shifted, shiftAll parts = some shifted ∧ expression =
        "cron(" ++ " ".intercalate [minute, hour, "?", month, fieldText shifted, "*"] ++ ")" := by
  have hread : ∀ shifted, (parts? weekday).bind shiftAll = some shifted ↔
      (∀ p ∈ parts, p.StepAllowed) ∧ shiftAll parts = some shifted := by
    simp [Option.bind_eq_some_iff, parts?_eq_some_iff hfield]
  simp only [eventBridge?, hline, if_neg hstar, if_true]
  simp only [bind, pure, Option.bind_map, Function.comp_def, Option.bind_eq_some_iff, hread,
    Option.some.injEq]
  constructor
  · rintro ⟨shifted, ⟨hstep, hshift⟩, heq⟩
    exact ⟨hstep, shifted, hshift, heq.symm⟩
  · rintro ⟨hstep, shifted, hshift, rfl⟩
    exact ⟨shifted, ⟨hstep, hshift⟩, rfl⟩

/-- **An accepted weekday field falls on the days that it means**, as long as no part runs from Sunday as 0
to Sunday as 7: such a part falls on Sunday only.  Everything else of the line is kept.  A line is refused
only for a step that is not between 1 and 7, or that carries days on past Saturday. -/
theorem falls_of_eventBridge (hline : Text.words line = [minute, hour, "*", month, weekday])
    (hfield : Written 0 weekday parts) (hforms : ∀ p ∈ parts, ∀ day n, p ≠ ⟨.one day, some n⟩) :
    ((∃ expression, eventBridge? line = some expression) ↔
      ∀ p ∈ parts, p.StepAllowed ∧ ¬ p.Wraps) ∧
    ∀ expression, eventBridge? line = some expression → ∃ dayOfMonth field,
      expression =
        "cron(" ++ " ".intercalate [minute, hour, dayOfMonth, month, field, "*"] ++ ")" ∧
      ((dayOfMonth = "*" ∧ field = "?") ∨
        (dayOfMonth = "?" ∧ ∃ shifted, Written 1 field shifted)) ∧
      (∀ day, Falls field day ↔ ∃ p ∈ parts, p.Means 0 day ∧ (p.days = .span 0 7 → day = 0)) ∧
      ((∀ p ∈ parts, p.days ≠ .span 0 7) → ∀ day, Falls field day ↔ Denotes 0 weekday day) := by
  -- Without a part from Sunday to Sunday the exception says nothing.
  have hsame : ∀ {field : String},
      (∀ day, Falls field day ↔ ∃ p ∈ parts, p.Means 0 day ∧ (p.days = .span 0 7 → day = 0)) →
      (∀ p ∈ parts, p.days ≠ .span 0 7) → ∀ day, Falls field day ↔ Denotes 0 weekday day := by
    intro field hfalls hnone day
    rw [hfalls, denotes_iff hfield]
    refine exists_congr fun p => and_congr_right fun hp => ?_
    simp [hnone p hp]
  by_cases hstar : weekday = "*"
  · subst hstar
    obtain rfl := eq_every_of_written hfield
    have hfalls : ∀ day, Falls "?" day ↔ ∃ p ∈ [(⟨.every, none⟩ : Part)],
        p.Means 0 day ∧ (p.days = .span 0 7 → day = 0) := by
      simp [falls_question, means_every]
    rw [eventBridge?_of_star hline]
    refine ⟨by simp [Part.StepAllowed, Part.Wraps], fun expression h => ?_⟩
    exact ⟨"*", "?", (Option.some.inj h).symm, .inl ⟨rfl, rfl⟩, hfalls, hsame hfalls⟩
  · refine ⟨?_, fun expression h => ?_⟩
    · simp only [eventBridge?_eq_some_iff hline hfield hstar, forall₂_and, ← exists_shiftAll_iff]
      constructor
      · rintro ⟨_, hstep, shifted, hshift, -⟩
        exact ⟨hstep, shifted, hshift⟩
      · rintro ⟨hstep, shifted, hshift⟩
        exact ⟨_, hstep, shifted, hshift, rfl⟩
    · obtain ⟨hstep, shifted, hshift, rfl⟩ := (eventBridge?_eq_some_iff hline hfield hstar).1 h
      have hwritten := written_shiftAll hfield hstep hshift
      have hfalls : ∀ day, Falls (fieldText shifted) day ↔
          ∃ p ∈ parts, p.Means 0 day ∧ (p.days = .span 0 7 → day = 0) := by
        intro day
        have hquestion : fieldText shifted ≠ "?" := fun heq => not_written_question (heq ▸ hwritten)
        rw [Falls, denotes_iff hwritten, means_shiftAll hfield hforms hshift]
        simp [hquestion]
      exact ⟨"?", fieldText shifted, rfl, .inr ⟨rfl, shifted, hwritten⟩, hfalls, hsame hfalls⟩

/-- A span that runs past Saturday is cut in two, and the names keep their days. -/
theorem falls_of_eventBridge_wrapped :
    let parts : List Part := [⟨.span 5 0, none⟩, ⟨.every, some 2⟩]
    Text.words "30 6 * * fri-SUN,*/2" = ["30", "6", "*", "*", "fri-SUN,*/2"] ∧
      Written 0 "fri-SUN,*/2" parts ∧ (∀ p ∈ parts, ∀ day n, p ≠ ⟨.one day, some n⟩) ∧
      eventBridge? "30 6 * * fri-SUN,*/2" = some "cron(30 6 ? * 6-7,1,1/2 *)" ∧
      ∃ dayOfMonth field, "cron(30 6 ? * 6-7,1,1/2 *)" =
          "cron(" ++ " ".intercalate ["30", "6", dayOfMonth, "*", field, "*"] ++ ")" ∧
        ∀ day, Falls field day ↔ Denotes 0 "fri-SUN,*/2" day := by
  intro parts
  have hline : Text.words "30 6 * * fri-SUN,*/2" = ["30", "6", "*", "*", "fri-SUN,*/2"] := by
    decide +kernel
  have hfield : Written 0 "fri-SUN,*/2" parts :=
    ⟨["fri-SUN", "*/2"], List.cons_ne_nil _ _,
      .cons ⟨"fri", "SUN", rfl, .name (i := 5) (by decide), .name (i := 0) (by decide)⟩
        (.cons ⟨"*", "2", rfl, rfl, by decide⟩ .nil), rfl⟩
  have hforms : ∀ p ∈ parts, ∀ day n, p ≠ ⟨.one day, some n⟩ := by
    simp [parts]
  have hread : eventBridge? "30 6 * * fri-SUN,*/2" = some "cron(30 6 ? * 6-7,1,1/2 *)" := by
    decide +kernel
  obtain ⟨dayOfMonth, field, hexpression, -, -, hsame⟩ :=
    (falls_of_eventBridge hline hfield hforms).2 _ hread
  exact ⟨hline, hfield, hforms, hread, dayOfMonth, field, hexpression, hsame (by simp [parts])⟩

/-- **A span from Sunday to Sunday becomes Sunday**: it means Monday and does not fall on it. -/
theorem eventBridge_sunday_to_sunday :
    Text.words "0 9 * * 0-7" = ["0", "9", "*", "*", "0-7"] ∧
      Written 0 "0-7" [⟨.span 0 7, none⟩] ∧
      eventBridge? "0 9 * * 0-7" = some "cron(0 9 ? * 1-1 *)" ∧
      (∀ day, Denotes 0 "0-7" day ↔ day < 7) ∧ (∀ day, Falls "1-1" day ↔ day = 0) ∧
      ¬ ∀ day, Falls "1-1" day ↔ Denotes 0 "0-7" day := by
  have hzero : Written 0 "0-7" [⟨.span 0 7, none⟩] :=
    ⟨["0-7"], List.cons_ne_nil _ _, .cons ⟨"0", "7", rfl, .number (by decide) (by decide) (by decide),
      .number (by decide) (by decide) (by decide)⟩ .nil, rfl⟩
  have hone : Written 1 "1-1" [⟨.span 1 1, none⟩] :=
    ⟨["1-1"], List.cons_ne_nil _ _, .cons ⟨"1", "1", rfl, .number (by decide) (by decide) (by decide),
      .number (by decide) (by decide) (by decide)⟩ .nil, rfl⟩
  have hmeans : ∀ day, Denotes 0 "0-7" day ↔ day < 7 := by
    intro day
    rw [denotes_iff hzero]
    simp only [List.mem_singleton, exists_eq_left]
    constructor
    · exact fun ⟨i, _, _, hday⟩ => hday ▸ Nat.mod_lt _ (by decide)
    · intro hday
      interval_cases day <;> decide
  have hfalls : ∀ day, Falls "1-1" day ↔ day = 0 := by
    intro day
    rw [Falls, denotes_iff hone]
    simp [Part.Means, Part.length, Part.first, eq_comm]
  refine ⟨by decide +kernel, hzero, by decide +kernel, hmeans, hfalls, fun hsame => ?_⟩
  exact absurd ((hfalls 1).1 ((hsame 1).2 ((hmeans 1).2 (by decide)))) (by decide)

end

end Provenance.Cron
