import Mathlib.Tactic.SplitIfs
import Provenance.Json.Printer
import Provenance.Json.Record

/-!
# Printed texts are read back

The JSON text of a text, of a list of texts and of a record of such lists is read as what it was printed
from, whatever characters the texts are made of.  A character is printed as itself or as an escape, and in
either form it is one unit for the reader (`units_escape`); none of them is half of a surrogate pair, so the
units join to the same characters (`joinUnits_toNat`).

The reader runs on fuel, one unit for each value, item and field.  The lemmas about values ask for as much
as the value has of these, and a whole text brings more than that with it (`length_le_printed`).
-/

namespace Provenance.Json

namespace Source

/-- The characters of a text, as the reader is given them. -/
def signs (cs : List Char) : Signs := cs.map some

@[simp] theorem signs_nil : signs [] = [] := rfl

@[simp] theorem signs_cons (c : Char) (cs : List Char) : signs (c :: cs) = some c :: signs cs := rfl

@[simp] theorem signs_append (cs ds : List Char) : signs (cs ++ ds) = signs cs ++ signs ds :=
  List.map_append

/-- The digits of base sixteen are read back. -/
theorem hex?_hexDigit : ∀ n, n < 16 → hex? (Text.hexDigit n) = some n := by decide

/-- An escape, or a character that needs none, is one unit. -/
theorem units_escape (c : Char) (acc : List Nat) (rest : Signs) :
    units acc (signs (escape c) ++ rest) = units (c.toNat :: acc) rest := by
  unfold escape
  split_ifs with hquote hslash hb hf hn hr ht hsmall
  · subst hquote; rfl
  · subst hslash; rfl
  · subst hb; rfl
  · subst hf; rfl
  · subst hn; rfl
  · subst hr; rfl
  · subst ht; rfl
  · have hunit : unit? '0' '0' (Text.hexDigit (c.toNat / 16)) (Text.hexDigit (c.toNat % 16)) =
        some c.toNat := by
      have h0 : hex? '0' = some 0 := rfl
      simp only [unit?, h0, hex?_hexDigit (c.toNat / 16) (by omega),
        hex?_hexDigit (c.toNat % 16) (by omega)]
      change some _ = _
      rw [Option.some_inj]
      omega
    simp only [signs_cons, signs_nil, List.cons_append, List.nil_append, units, hunit]
  · simp only [signs_cons, signs_nil, List.cons_append, List.nil_append]
    rw [units]
    · rw [if_neg (by simp [hsmall, hslash])]
    all_goals simp_all

/-- The units of a printed text are its code points. -/
theorem units_flatMap_escape (cs : List Char) (acc : List Nat) (rest : Signs) :
    units acc (signs (cs.flatMap escape) ++ some '"' :: rest) =
      some (acc.reverse ++ cs.map Char.toNat, rest) := by
  induction cs generalizing acc with
  | nil => simp [units]
  | cons c cs ih =>
    rw [List.flatMap_cons, signs_append, List.append_assoc, units_escape, ih]
    simp

/-- No character is half of a surrogate pair. -/
theorem joinUnits_toNat (cs : List Char) : joinUnits (cs.map Char.toNat) = some cs := by
  induction cs with
  | nil => rfl
  | cons c cs ih =>
    have hvalid : c.toNat < 0xD800 ∨ 0xDFFF < c.toNat ∧ c.toNat < 0x110000 := c.valid
    rw [List.map_cons, joinUnits.eq_def]
    simp only
    rw [if_neg (by omega), if_neg (by unfold noUnit; omega), ih, Char.ofNat_toNat]
    rfl

/-- A printed text is read back. -/
theorem textAfter_quote (s : String) (rest : Signs) :
    textAfter (signs (s.toList.flatMap escape) ++ some '"' :: rest) = some (some s, rest) := by
  rw [textAfter, units_flatMap_escape]
  simp [joinUnits_toNat]

@[simp] theorem toList_quote (s : String) :
    (quote s).toList = '"' :: (s.toList.flatMap escape ++ ['"']) := by
  simp [quote]

/-- A text in quotes is a value. -/
theorem value_quote (fuel : Nat) (s : String) (rest : Signs) :
    value (fuel + 1) (signs (quote s).toList ++ rest) = some (.text (some s), rest) := by
  have hskip : skip (signs (quote s).toList ++ rest) =
      some '"' :: (signs (s.toList.flatMap escape) ++ some '"' :: rest) := by
    simp [skip, isGap]
  rw [value, hskip]
  simp only [textAfter_quote]
  rfl

/-! ### Lists of texts -/

/-- What texts are read as. -/
def texts (ts : List String) : List Source := ts.map fun t => .text (some t)

theorem items_texts (t : String) (ts : List String) (fuel : Nat) (hfuel : ts.length + 2 ≤ fuel)
    (rest : Signs) :
    items fuel (signs (compactItems ((t :: ts).map .text)).toList ++ some ']' :: rest) =
      some (texts (t :: ts), rest) := by
  induction ts generalizing t fuel with
  | nil =>
    obtain ⟨fuel, rfl⟩ : ∃ n, fuel = n + 2 := ⟨fuel - 2, by simp at hfuel; omega⟩
    rw [List.map_singleton, compactItems, compact, items, value_quote]
    rfl
  | cons u ts ih =>
    obtain ⟨fuel, rfl⟩ : ∃ n, fuel = n + 2 := ⟨fuel - 2, by simp at hfuel; omega⟩
    have hitems : (compactItems ((t :: u :: ts).map .text)).toList =
        (quote t).toList ++ ',' :: (compactItems ((u :: ts).map .text)).toList := by
      simp [compactItems, compact]
    have hrest := ih u (fuel + 1) (by simp at hfuel; omega)
    rw [hitems, signs_append, signs_cons, List.append_assoc, List.cons_append, items, value_quote]
    generalize signs (compactItems ((u :: ts).map .text)).toList ++ some ']' :: rest = cs at hrest ⊢
    change (items (fuel + 1) cs).map _ = _
    rw [hrest]
    rfl

/-- A printed list of texts is a value, if there is fuel for its items. -/
theorem value_texts (ts : List String) (fuel : Nat) (hfuel : ts.length + 2 ≤ fuel) (rest : Signs) :
    value fuel (signs (Json.texts ts).compact.toList ++ rest) = some (.list (texts ts), rest) := by
  obtain ⟨fuel, rfl⟩ : ∃ n, fuel = n + 1 := ⟨fuel - 1, by omega⟩
  cases ts with
  | nil => rfl
  | cons t ts =>
    have htext : signs (Json.texts (t :: ts)).compact.toList ++ rest =
        some '[' :: (signs (compactItems ((t :: ts).map .text)).toList ++ some ']' :: rest) := by
      simp [Json.texts, compact]
    have hquote : ∃ cs, signs (compactItems ((t :: ts).map .text)).toList ++ some ']' :: rest =
        some '"' :: cs := by
      cases ts <;> simp [compactItems, compact]
    have hitems := items_texts t ts fuel (by simp at hfuel; omega) rest
    obtain ⟨cs, hcs⟩ := hquote
    rw [htext, hcs, value]
    rw [hcs] at hitems
    change (items fuel (some '"' :: cs)).map _ = _
    rw [hitems]
    rfl

/-! ### Records of lists of texts -/

/-- The fields that lists of texts are printed as. -/
def printed (fs : List (String × List String)) : List (String × Json) :=
  fs.map fun (k, ts) => (k, Json.texts ts)

/-- The characters of one field. -/
def fieldText (k : String) (ts : List String) : List Char :=
  (quote k).toList ++ ':' :: (Json.texts ts).compact.toList

theorem toList_printed_singleton (k : String) (ts : List String) :
    (compactFields (printed [(k, ts)])).toList = fieldText k ts := by
  simp [printed, compactFields, fieldText]

theorem toList_printed_cons_cons (k l : String) (ts us : List String)
    (fs : List (String × List String)) :
    (compactFields (printed ((k, ts) :: (l, us) :: fs))).toList =
      fieldText k ts ++ ',' :: (compactFields (printed ((l, us) :: fs))).toList := by
  simp [printed, compactFields, fieldText]

/-- What the fields are read as. -/
def fields (fs : List (String × List String)) : List (Option String × Source) :=
  fs.map fun (k, ts) => (some k, .list (texts ts))

theorem skip_fieldText (k : String) (ts : List String) (rest : Signs) :
    skip (signs (fieldText k ts) ++ rest) =
      some '"' :: (signs (k.toList.flatMap escape) ++ some '"' :: some ':' ::
        (signs (Json.texts ts).compact.toList ++ rest)) := by
  simp [fieldText, skip, isGap]

/-- The reader goes over the last field. -/
theorem entries_last (k : String) (ts : List String) (fuel : Nat) (hfuel : ts.length + 2 ≤ fuel)
    (rest : Signs) :
    entries (fuel + 1) (signs (fieldText k ts) ++ some '\x7d' :: rest) =
      some ([(some k, .list (texts ts))], rest) := by
  have hvalue := value_texts ts fuel hfuel (some '\x7d' :: rest)
  rw [entries, skip_fieldText]
  generalize signs (Json.texts ts).compact.toList ++ some '\x7d' :: rest = cs at hvalue ⊢
  have hcolon : skip (some ':' :: cs) = some ':' :: cs := rfl
  simp only [textAfter_quote, hcolon, hvalue]
  rfl

/-- The reader goes over a field in front of another. -/
theorem entries_comma (k : String) (ts : List String) (fuel : Nat) (hfuel : ts.length + 2 ≤ fuel)
    (rest : Signs) :
    entries (fuel + 1) (signs (fieldText k ts) ++ some ',' :: rest) =
      (entries fuel rest).map fun (fs, rest) => ((some k, .list (texts ts)) :: fs, rest) := by
  have hvalue := value_texts ts fuel hfuel (some ',' :: rest)
  rw [entries, skip_fieldText]
  generalize signs (Json.texts ts).compact.toList ++ some ',' :: rest = cs at hvalue ⊢
  have hcolon : skip (some ':' :: cs) = some ':' :: cs := rfl
  simp only [textAfter_quote, hcolon, hvalue]
  rfl

theorem entries_printed (k : String) (ts : List String) (fs : List (String × List String)) (fuel : Nat)
    (hfuel : ∀ e ∈ (k, ts) :: fs, e.2.length + fs.length + 3 ≤ fuel) (rest : Signs) :
    entries fuel (signs (compactFields (printed ((k, ts) :: fs))).toList ++ some '\x7d' :: rest) =
      some (fields ((k, ts) :: fs), rest) := by
  induction fs generalizing k ts fuel with
  | nil =>
    have hts : ts.length + 3 ≤ fuel := hfuel (k, ts) List.mem_cons_self
    obtain ⟨fuel, rfl⟩ : ∃ n, fuel = n + 1 := ⟨fuel - 1, by omega⟩
    rw [toList_printed_singleton]
    exact entries_last k ts fuel (by omega) rest
  | cons e fs ih =>
    obtain ⟨l, us⟩ := e
    have hts : ts.length + (fs.length + 1) + 3 ≤ fuel := hfuel (k, ts) List.mem_cons_self
    obtain ⟨fuel, rfl⟩ : ∃ n, fuel = n + 1 := ⟨fuel - 1, by omega⟩
    have hrest := ih l us fuel fun e he => by
      have he : e.2.length + (fs.length + 1) + 3 ≤ fuel + 1 := hfuel e (List.mem_cons_of_mem _ he)
      omega
    rw [toList_printed_cons_cons, signs_append, signs_cons, List.append_assoc, List.cons_append,
      entries_comma k ts fuel (by omega), hrest]
    rfl

/-- A printed record of lists of texts is a value, if there is fuel for its fields. -/
theorem value_printed (k : String) (ts : List String) (fs : List (String × List String)) (fuel : Nat)
    (hfuel : ∀ e ∈ (k, ts) :: fs, e.2.length + fs.length + 3 ≤ fuel) (rest : Signs) :
    value (fuel + 1) (signs (Json.object (printed ((k, ts) :: fs))).compact.toList ++ rest) =
      some (.object (fields ((k, ts) :: fs)), rest) := by
  have hentries := entries_printed k ts fs fuel hfuel rest
  have htext : signs (Json.object (printed ((k, ts) :: fs))).compact.toList ++ rest = some '\x7b' ::
      (signs (compactFields (printed ((k, ts) :: fs))).toList ++ some '\x7d' :: rest) := by
    simp [compact]
  obtain ⟨cs, hcs⟩ : ∃ cs, signs (compactFields (printed ((k, ts) :: fs))).toList ++
      some '\x7d' :: rest = some '"' :: cs := by
    cases fs <;> simp [printed, compactFields]
  rw [htext, hcs, value]
  rw [hcs] at hentries
  change (entries fuel (some '"' :: cs)).map (fun (fs, rest) => (object fs, rest)) = _
  rw [hentries]
  rfl

/-! ### There is fuel enough

The fuel is measured by the characters of the text, of which every item and every field has some. -/

theorem length_le_compactItems (ts : List String) :
    ts.length ≤ (compactItems (ts.map .text)).toList.length := by
  induction ts with
  | nil => exact Nat.zero_le _
  | cons t ts ih =>
    cases ts with
    | nil => simp [compactItems, compact]
    | cons u ts =>
      simp [compactItems, compact] at ih ⊢
      omega

theorem length_lt_fieldText (k : String) (ts : List String) : ts.length + 1 < (fieldText k ts).length := by
  have hts := length_le_compactItems ts
  simp [fieldText, Json.texts, compact] at hts ⊢
  omega

theorem length_le_printed (fs : List (String × List String)) :
    ∀ e ∈ fs, e.2.length + fs.length ≤ (compactFields (printed fs)).toList.length := by
  induction fs with
  | nil => exact fun e he => absurd he List.not_mem_nil
  | cons f fs ih =>
    obtain ⟨k, ts⟩ := f
    have hts := length_lt_fieldText k ts
    cases fs with
    | nil =>
      intro e he
      obtain rfl := List.mem_singleton.1 he
      rw [toList_printed_singleton, List.length_singleton]
      exact Nat.le_of_lt hts
    | cons g fs =>
      obtain ⟨l, us⟩ := g
      have hus : us.length + (fs.length + 1) ≤ _ := ih (l, us) List.mem_cons_self
      intro e he
      rw [toList_printed_cons_cons]
      simp only [List.length_append, List.length_cons]
      rcases List.mem_cons.1 he with rfl | he
      · dsimp only
        omega
      · have he : e.2.length + (fs.length + 1) ≤ _ := ih e he
        omega

/-- **A printed record of lists of texts is read back.** -/
theorem ofText?_printed (k : String) (ts : List String) (fs : List (String × List String)) :
    ofText? (Json.object (printed ((k, ts) :: fs))).compact =
      some (.object (fields ((k, ts) :: fs))) := by
  have hchars : (signs (Json.object (printed ((k, ts) :: fs))).compact.toList).length =
      (compactFields (printed ((k, ts) :: fs))).toList.length + 2 := by
    simp [signs, compact]
  have hvalue := value_printed k ts fs
    (2 * (signs (Json.object (printed ((k, ts) :: fs))).compact.toList).length + 1) (fun e he => by
      have he : e.2.length + (fs.length + 1) ≤ _ := length_le_printed ((k, ts) :: fs) e he
      omega) []
  rw [List.append_nil] at hvalue
  rw [ofText?, ofSigns?, ← signs, hvalue]
  rfl

end Source

end Provenance.Json
