import Mathlib.Data.List.Forall2
import Mathlib.Data.List.Nodup
import Provenance.Cron
import Provenance.Proofs.Text.Pieces

/-!
# How weekdays are written

The weekday field of a schedule is a list of parts with commas between them.  A part is a star, a day or
two days with a dash between them, and may carry a step behind a slash; a day is a number or a short name.
The numbers depend on the number of Sunday: it is 0 for cron, where Sunday is 7 as well, and 1 elsewhere.

The marks between days, parts and steps stand in no day, so a text is never written for two lists of parts
(`Written.unique`).  What is written for cron is read (`parts?_eq_some_iff`), and only steps that are not
between 1 and 7 are refused.
-/

namespace Provenance

/-! ## Numbers -/

namespace Text

/-- A number is written in digits. -/
theorem digit?_ne_none_of_mem {cs : List Char} {n : ℕ} (h : digits? cs = some n) {c : Char} (hc : c ∈ cs) :
    digit? c ≠ none := by
  have hnone : ∀ ds : List Char, ds.foldl
      (fun acc c => acc.bind fun n => (digit? c).map fun d => n * 10 + d) (none : Option ℕ) = none := by
    intro ds
    induction ds with
    | nil => rfl
    | cons d ds ih => exact ih
  have hfold : ∀ (ds : List Char) (acc : Option ℕ), c ∈ ds → digit? c = none → ds.foldl
      (fun acc c => acc.bind fun n => (digit? c).map fun d => n * 10 + d) acc = none := by
    intro ds
    induction ds with
    | nil => exact fun _ hmem => absurd hmem List.not_mem_nil
    | cons d ds ih =>
      intro acc hmem hdigit
      rcases List.mem_cons.1 hmem with rfl | hmem
      · rw [List.foldl_cons, hdigit]
        cases acc <;> exact hnone ds
      · exact ih _ hmem hdigit
  intro hdigit
  cases cs with
  | nil => exact absurd hc List.not_mem_nil
  | cons d ds => exact absurd ((hfold _ _ hc hdigit).symm.trans h) (by simp)

/-- A text of digits is read as the number that they denote, if it is below the bound. -/
theorem natBelow?_of_digits {bound n : ℕ} {s : String} (h : digits? s.toList = some n) :
    natBelow? bound s = (some n).filter (· < bound) := by
  have hplus : s.toList.head? ≠ some '+' := fun hhead =>
    digit?_ne_none_of_mem h (List.mem_of_mem_head? hhead) (by decide)
  simp [natBelow?, hplus, h]

end Text

namespace Cron

/-! ## Days -/

/-- The characters that part days, steps and parts, those that stand for every day, and a sign that may stand
before a number. -/
def marks : List Char := [',', '/', '-', '*', '?', '+']

/-- How a day is written if Sunday has the number `sunday`: as its number or as its short name. -/
inductive DayWritten (sunday : ℕ) : ℕ → String → Prop
  | number {token : String} {day : ℕ} : Text.digits? token.toList = some day → sunday ≤ day → day ≤ 7 →
      DayWritten sunday day token
  | name {token : String} {i : ℕ} : dayNames[i]? = some (Text.lowerAscii token) →
      DayWritten sunday (sunday + i) token

section

variable {sunday day day' : ℕ} {token : String}

theorem toLower_mem_of_name {i : ℕ} (h : dayNames[i]? = some (Text.lowerAscii token)) {c : Char}
    (hc : c ∈ token.toList) : ∃ name ∈ dayNames, c.toLower ∈ name.toList := by
  refine ⟨_, List.mem_of_getElem? h, ?_⟩
  rw [Text.lowerAscii, String.toList_ofList]
  exact List.mem_map_of_mem hc

/-- No mark is a digit or a letter of a short name. -/
theorem digit?_of_mem_marks {c : Char} (hc : c ∈ marks) :
    Text.digit? c = none ∧ ∀ name ∈ dayNames, c.toLower ∉ name.toList := by
  simp only [marks, List.mem_cons, List.not_mem_nil, or_false] at hc
  rcases hc with rfl | rfl | rfl | rfl | rfl | rfl <;> decide

/-- **No mark stands in a day.** -/
theorem DayWritten.notMem (h : DayWritten sunday day token) {c : Char} (hc : c ∈ marks) :
    c ∉ token.toList := by
  obtain ⟨hdigit, hnames⟩ := digit?_of_mem_marks hc
  intro hmem
  cases h with
  | number hdigits _ _ => exact Text.digit?_ne_none_of_mem hdigits hmem hdigit
  | name hname =>
    obtain ⟨name, hname, hletter⟩ := toLower_mem_of_name hname hmem
    exact hnames name hname hletter

/-- A short name has no digits. -/
theorem digits?_of_name {i : ℕ} (h : dayNames[i]? = some (Text.lowerAscii token)) :
    Text.digits? token.toList = none := by
  cases hdigits : Text.digits? token.toList with
  | none => rfl
  | some n =>
    obtain ⟨c, cs, hlist⟩ : ∃ c cs, token.toList = c :: cs :=
      List.exists_cons_of_ne_nil fun hnil => by rw [hnil] at hdigits; cases hdigits
    have hmem : c ∈ token.toList := hlist ▸ List.mem_cons_self
    have hdigit := Text.digit?_ne_none_of_mem hdigits hmem
    obtain ⟨name, hnames, hletter⟩ := toLower_mem_of_name h hmem
    have hletters : ∀ name ∈ dayNames, (name.toList.all fun c => (Text.digit? c).isNone) = true := by
      decide
    have hlower : c.toLower = c := by
      rw [Text.digit?] at hdigit
      split at hdigit
      · rename_i hrange
        exact dif_neg fun hupper => absurd (UInt32.le_trans hupper.1 hrange.2) (by decide)
      · exact absurd rfl hdigit
    have hnone := List.all_eq_true.1 (hletters name hnames) _ hletter
    rw [hlower, Option.isNone_iff_eq_none] at hnone
    exact absurd hnone hdigit

theorem DayWritten.unique (h : DayWritten sunday day token) (h' : DayWritten sunday day' token) :
    day = day' := by
  cases h with
  | number hdigits _ _ =>
    cases h' with
    | number hdigits' _ _ => exact Option.some.inj (hdigits.symm.trans hdigits')
    | name hname => exact absurd (hdigits.symm.trans (digits?_of_name hname)) (Option.some_ne_none _)
  | @name _ i hname =>
    cases h' with
    | number hdigits _ _ => exact absurd (hdigits.symm.trans (digits?_of_name hname)) (Option.some_ne_none _)
    | @name _ j hname' =>
      have hnodup : dayNames.Nodup := by decide
      have hi : i < dayNames.length := (List.getElem?_eq_some_iff.1 hname).1
      rw [(List.getElem?_inj hi hnodup).1 (hname.trans hname'.symm)]

/-- What is written for cron is read. -/
theorem day?_of_written (h : DayWritten 0 day token) : day? token = some day := by
  cases h with
  | number hdigits _ hday =>
    have hread : Text.natBelow? 256 token = some day := by
      rw [Text.natBelow?_of_digits hdigits, Option.filter_some, if_pos (decide_eq_true (by omega))]
    simp only [day?, hread, if_pos hday]
  | @name _ i hname =>
    have hwritten : DayWritten 0 (0 + i) token := .name hname
    have hplus : token.toList.head? ≠ some '+' := fun hhead =>
      hwritten.notMem (by decide) (List.mem_of_mem_head? hhead)
    have hread : Text.natBelow? 256 token = none := by
      simp [Text.natBelow?, hplus, digits?_of_name hname]
    obtain ⟨hi, hget⟩ := List.getElem?_eq_some_iff.1 hname
    have hfind : ∀ i (hi : i < dayNames.length), dayNames.findIdx? (· == dayNames[i]) = some i := by decide
    simp only [day?, hread, ← hget, hfind i hi, Nat.zero_add]

end

/-! ## Parts -/

/-- How one day or several are written. -/
def Days.Written (sunday : ℕ) (text : String) : Days → Prop
  | .every => text = "*"
  | .one day => DayWritten sunday day text
  | .span first last =>
    ∃ s t, text = s ++ "-" ++ t ∧ DayWritten sunday first s ∧ DayWritten sunday last t

/-- How a part is written. -/
def Part.Written (sunday : ℕ) (text : String) (p : Part) : Prop :=
  match p.step with
  | none => p.days.Written sunday text
  | some n => ∃ s t, text = s ++ "/" ++ t ∧ p.days.Written sunday s ∧ Text.digits? t.toList = some n

/-- How a list of parts is written. -/
def Written (sunday : ℕ) (field : String) (parts : List Part) : Prop :=
  ∃ texts : List String, texts ≠ [] ∧ List.Forall₂ (Part.Written sunday) texts parts ∧
    field = ",".intercalate texts

/-- Cron takes a step between 1 and 7. -/
def Part.StepAllowed (p : Part) : Prop := ∀ n, p.step = some n → 1 ≤ n ∧ n ≤ 7

section

variable {sunday : ℕ} {text : String} {days days' : Days} {p p' : Part}

/-- Commas, slashes and question marks stand in no days. -/
theorem Days.Written.notMem (h : days.Written sunday text) {c : Char} (hc : c ∈ [',', '/', '?']) :
    c ∉ text.toList := by
  obtain ⟨hmark, hstar, hdash⟩ : c ∈ marks ∧ c ∉ "*".toList ∧ c ∉ "-".toList := by
    simp only [List.mem_cons, List.not_mem_nil, or_false] at hc
    rcases hc with rfl | rfl | rfl <;> decide
  cases days with
  | every =>
    obtain rfl : text = "*" := h
    exact hstar
  | one day => exact DayWritten.notMem h hmark
  | span first last =>
    obtain ⟨s, t, rfl, hfirst, hlast⟩ := h
    simpa only [String.toList_append, List.mem_append, not_or] using
      ⟨⟨hfirst.notMem hmark, hdash⟩, hlast.notMem hmark⟩

theorem Days.Written.mem_star_iff (h : days.Written sunday text) : '*' ∈ text.toList ↔ days = .every := by
  have hmark : '*' ∈ marks := by decide
  cases days with
  | every =>
    obtain rfl : text = "*" := h
    decide
  | one day => simpa using DayWritten.notMem h hmark
  | span first last =>
    obtain ⟨s, t, rfl, hfirst, hlast⟩ := h
    simp [hfirst.notMem hmark, hlast.notMem hmark]

theorem Days.Written.mem_dash_iff (h : days.Written sunday text) :
    '-' ∈ text.toList ↔ ∃ first last, days = .span first last := by
  cases days with
  | every =>
    obtain rfl : text = "*" := h
    simp
  | one day => simpa using DayWritten.notMem h (c := '-') (by decide)
  | span first last =>
    obtain ⟨s, t, rfl, -, -⟩ := h
    simp

theorem Days.Written.unique (h : days.Written sunday text) (h' : days'.Written sunday text) :
    days = days' := by
  have hstar := h.mem_star_iff.symm.trans h'.mem_star_iff
  have hdash := h.mem_dash_iff.symm.trans h'.mem_dash_iff
  cases days with
  | every => exact (hstar.1 rfl).symm
  | one day =>
    cases days' with
    | every => exact hstar.2 rfl
    | one day' => rw [DayWritten.unique h h']
    | span first' last' => exact absurd (hdash.2 ⟨_, _, rfl⟩) (by simp)
  | span first last =>
    obtain ⟨first', last', rfl⟩ := hdash.1 ⟨_, _, rfl⟩
    obtain ⟨s, t, rfl, hfirst, hlast⟩ := h
    obtain ⟨s', t', heq, hfirst', hlast'⟩ := h'
    have hsplit : Text.splitFirst '-' (s ++ "-" ++ t) = some (s, t) :=
      Text.splitFirst_append_sep (hfirst.notMem (by decide)) rfl t
    rw [heq, Text.splitFirst_append_sep (hfirst'.notMem (by decide)) rfl] at hsplit
    obtain ⟨rfl, rfl⟩ := Prod.mk.inj (Option.some.inj hsplit)
    rw [hfirst.unique hfirst', hlast.unique hlast']

/-- What is written for cron is read. -/
theorem days?_of_written (h : days.Written 0 text) : days? text = some days := by
  have hstar : days ≠ .every → text ≠ "*" := by
    rintro hne rfl
    exact hne (h.mem_star_iff.1 (by decide))
  cases days with
  | every =>
    obtain rfl : text = "*" := h
    rfl
  | one day =>
    rw [days?, if_neg (hstar (by simp)), Text.splitFirst_of_notMem (DayWritten.notMem h (by decide))]
    simp only [day?_of_written h, Option.map_some]
  | span first last =>
    have hstar := hstar (by simp)
    obtain ⟨s, t, rfl, hfirst, hlast⟩ := h
    rw [days?, if_neg hstar, Text.splitFirst_append_sep (hfirst.notMem (by decide)) rfl]
    simp [day?_of_written hfirst, day?_of_written hlast]

/-- Commas and question marks stand in no part. -/
theorem Part.Written.notMem (h : p.Written sunday text) {c : Char} (hc : c ∈ [',', '?']) :
    c ∉ text.toList := by
  obtain ⟨hmark, hslash, hdigit⟩ : c ∈ [',', '/', '?'] ∧ c ∉ "/".toList ∧ Text.digit? c = none := by
    simp only [List.mem_cons, List.not_mem_nil, or_false] at hc
    rcases hc with rfl | rfl <;> decide
  obtain ⟨days, step⟩ := p
  cases step with
  | none => exact Days.Written.notMem h hmark
  | some n =>
    obtain ⟨s, t, rfl, hdays, hstep⟩ := h
    have hnumber : c ∉ t.toList := fun hmem => Text.digit?_ne_none_of_mem hstep hmem hdigit
    simpa only [String.toList_append, List.mem_append, not_or] using
      ⟨⟨hdays.notMem hmark, hslash⟩, hnumber⟩

theorem Part.Written.mem_slash_iff (h : p.Written sunday text) : '/' ∈ text.toList ↔ p.step ≠ none := by
  obtain ⟨days, step⟩ := p
  cases step with
  | none => simpa using Days.Written.notMem h (c := '/') (by decide)
  | some n =>
    obtain ⟨s, t, rfl, -, -⟩ := h
    simp

theorem Part.Written.unique (h : p.Written sunday text) (h' : p'.Written sunday text) : p = p' := by
  have hslash := h.mem_slash_iff.symm.trans h'.mem_slash_iff
  obtain ⟨days, step⟩ := p
  obtain ⟨days', step'⟩ := p'
  cases step with
  | none =>
    obtain rfl : step' = none := by simpa using hslash
    obtain rfl : days = days' := Days.Written.unique h h'
    rfl
  | some n =>
    obtain ⟨n', rfl⟩ : ∃ n', step' = some n' := by simpa [Option.ne_none_iff_exists'] using hslash
    obtain ⟨s, t, rfl, hdays, hstep⟩ := h
    obtain ⟨s', t', heq, hdays', hstep'⟩ := h'
    have hsplit : Text.splitFirst '/' (s ++ "/" ++ t) = some (s, t) :=
      Text.splitFirst_append_sep (hdays.notMem (by decide)) rfl t
    rw [heq, Text.splitFirst_append_sep (hdays'.notMem (by decide)) rfl] at hsplit
    obtain ⟨rfl, rfl⟩ := Prod.mk.inj (Option.some.inj hsplit)
    obtain rfl : days = days' := hdays.unique hdays'
    obtain rfl : n = n' := Option.some.inj (hstep.symm.trans hstep')
    rfl

/-- **What is written for cron is read, unless its step is too long or zero.** -/
theorem Part.ofText?_eq_some_iff (h : p.Written 0 text) :
    Part.ofText? text = some p' ↔ p' = p ∧ p.StepAllowed := by
  obtain ⟨days, step⟩ := p
  cases step with
  | none =>
    rw [Part.ofText?, Text.splitFirst_of_notMem (Days.Written.notMem h (by decide))]
    simp [days?_of_written h, StepAllowed, eq_comm]
  | some n =>
    obtain ⟨s, t, rfl, hdays, hstep⟩ := h
    rw [Part.ofText?, Text.splitFirst_append_sep (hdays.notMem (by decide)) rfl]
    have hnumber : ((some n).filter (· < 256)).filter (fun n => 1 ≤ n ∧ n ≤ 7) =
        if 1 ≤ n ∧ n ≤ 7 then some n else none := by
      rw [Option.filter_filter, Option.filter_some]
      refine if_congr ?_ rfl rfl
      simp only [Bool.and_eq_true, decide_eq_true_eq]
      omega
    have hallowed : StepAllowed ⟨days, some n⟩ ↔ 1 ≤ n ∧ n ≤ 7 := by simp [StepAllowed]
    simp only [Text.natBelow?_of_digits hstep, days?_of_written hdays, hnumber, hallowed]
    split <;> simp [*, eq_comm]

end

/-! ## Fields -/

section

variable {sunday : ℕ} {field : String} {parts parts' : List Part}

/-- The pieces between the commas are the texts of the parts. -/
theorem Written.forall₂ (h : Written sunday field parts) :
    List.Forall₂ (Part.Written sunday) (Text.splitAll ',' field) parts := by
  obtain ⟨texts, hne, hparts, rfl⟩ := h
  have hcomma : ∀ t ∈ texts, ',' ∉ t.toList := by
    clear hne
    induction hparts with
    | nil => exact fun _ hmem => absurd hmem List.not_mem_nil
    | cons hpart _ ih => exact List.forall_mem_cons.2 ⟨hpart.notMem (by decide), ih⟩
  rwa [Text.splitAll_intercalate rfl hne hcomma]

/-- **A text is written for one list of parts.** -/
theorem Written.unique (h : Written sunday field parts) (h' : Written sunday field parts') :
    parts = parts' := by
  have hpart : Relator.RightUnique (Part.Written sunday) := fun _ _ _ hp hp' => hp.unique hp'
  exact hpart.forall₂ h.forall₂ h'.forall₂

/-- A question mark is written for no parts. -/
theorem not_written_question : ¬ Written sunday "?" parts := by
  intro h
  have hsplit : Text.splitAll ',' "?" = ["?"] := by decide
  have hparts := h.forall₂
  rw [hsplit] at hparts
  obtain ⟨p, _, hpart, -, -⟩ := List.forall₂_cons_left_iff.1 hparts
  exact hpart.notMem (c := '?') (by decide) (by decide)

/-- **What is written for cron is read**, unless there is a step that cron does not take. -/
theorem parts?_eq_some_iff (h : Written 0 field parts) :
    parts? field = some parts' ↔ parts' = parts ∧ ∀ p ∈ parts, p.StepAllowed := by
  have hparts := h.forall₂
  rw [parts?]
  generalize Text.splitAll ',' field = texts at hparts
  clear h
  induction hparts generalizing parts' with
  | nil => simp [eq_comm]
  | @cons text p texts parts hpart hparts ih =>
    have hcons : (text :: texts).mapM Part.ofText? = some parts' ↔
        p.StepAllowed ∧ (∀ q ∈ parts, q.StepAllowed) ∧ p :: parts = parts' := by
      simp [Option.bind_eq_some_iff, Part.ofText?_eq_some_iff hpart, ih]
    rw [hcons, List.forall_mem_cons, ← and_assoc, and_comm, eq_comm]

end

end Cron

end Provenance
