import Mathlib.Data.List.Chain
import Mathlib.Data.List.TakeWhile
import Provenance.Infra.Naming

/-!
# The readable part of a name

Whatever text a name is made from, its readable part consists of words of small letters and digits that
are joined by single separators (`Tidy`), and it spells the letters and digits of the text from the first
one on, as many as there is room for (`tidy_sanitize`).

`addChar` writes from the left, so the name stands in reverse while it is written.  What it keeps up is
`Spaced`, which holds of every ending of the name in reverse, that is, wherever the name is cut.  Cutting
may leave a separator at the end, which is taken off.  Nothing more is lost, since separators are single
(`le_length_kept`), and something is left, since a name never begins with one (`kept_eq_nil_iff`).
-/

namespace Provenance

namespace Naming

/-! ## Letters and digits -/

/-- A small letter or a digit. -/
structure Sign (c : Char) : Prop where
  alphanum : c.isAlphanum = true
  small : c.toLower = c

instance (c : Char) : Decidable (Sign c) :=
  decidable_of_iff (c.isAlphanum = true ∧ c.toLower = c) ⟨fun h => ⟨h.1, h.2⟩, fun h => ⟨h.1, h.2⟩⟩

theorem lt_of_isAlphanum {c : Char} (h : c.isAlphanum = true) : c.toNat < 128 := by
  delta Char.isAlphanum Char.isAlpha Char.isUpper Char.isLower Char.isDigit at h
  simp only [Bool.or_eq_true, Bool.and_eq_true, decide_eq_true_eq, UInt32.le_iff_toNat_le, ge_iff_le] at h
  have hz : 'z'.val.toNat < 128 := by decide
  have hZ : 'Z'.val.toNat < 128 := by decide
  have h9 : '9'.val.toNat < 128 := by decide
  have hc : c.toNat = c.val.toNat := rfl
  omega

theorem sign_toLower {c : Char} (h : c.isAlphanum = true) : Sign c.toLower := by
  have hall : ∀ n < 128, (Char.ofNat n).isAlphanum = true →
      (Char.ofNat n).toLower.isAlphanum = true ∧
        (Char.ofNat n).toLower.toLower = (Char.ofNat n).toLower := by
    decide +kernel
  have hc := hall c.toNat (lt_of_isAlphanum h)
  rw [Char.ofNat_toNat] at hc
  exact ⟨(hc h).1, (hc h).2⟩

theorem Sign.isLower_or_isDigit {c : Char} (h : Sign c) : c.isLower = true ∨ c.isDigit = true := by
  have hall : ∀ n < 128, (Char.ofNat n).isAlphanum = true → (Char.ofNat n).toLower = Char.ofNat n →
      (Char.ofNat n).isLower = true ∨ (Char.ofNat n).isDigit = true := by
    decide +kernel
  have hc := hall c.toNat (lt_of_isAlphanum h.alphanum)
  rw [Char.ofNat_toNat] at hc
  exact hc h.alphanum h.small

theorem utf8Size_of_lt {c : Char} (h : c.toNat < 128) : c.utf8Size = 1 := by
  have hall : ∀ n < 128, (Char.ofNat n).utf8Size = 1 := by
    decide +kernel
  have hc := hall c.toNat h
  rwa [Char.ofNat_toNat] at hc

theorem Sign.utf8Size {c : Char} (h : Sign c) : c.utf8Size = 1 :=
  utf8Size_of_lt (lt_of_isAlphanum h.alphanum)

/-- A character that words may be joined by. -/
structure Separator (sep : Char) : Prop where
  ascii : sep.toNat < 128
  not_alphanum : sep.isAlphanum = false

theorem Separator.ne_of_sign {sep c : Char} (hsep : Separator sep) (hc : Sign c) : c ≠ sep := by
  rintro rfl
  exact absurd hc.alphanum (by rw [hsep.not_alphanum]; exact Bool.false_ne_true)

/-! ## Names while they are written -/

/-- Names in reverse that `addChar` writes: letters and digits in small, and single separators between
them, of which the last one may be open. -/
structure Spaced (sep : Char) (back : List Char) : Prop where
  sign_or_sep : ∀ c ∈ back, Sign c ∨ c = sep
  single : back.IsChain fun c d => c ≠ sep ∨ d ≠ sep
  start : back.getLast? ≠ some sep

section

variable {sep : Char} {back : List Char}

theorem spaced_nil : Spaced sep [] :=
  ⟨fun _ hc => absurd hc List.not_mem_nil, .nil, by simp⟩

theorem Spaced.of_suffix {back' : List Char} (h : Spaced sep back) (hsuffix : back' <:+ back) :
    Spaced sep back' := by
  refine ⟨fun c hc => h.sign_or_sep c (hsuffix.mem hc), h.single.suffix hsuffix, fun hlast => ?_⟩
  obtain ⟨front, rfl⟩ := hsuffix
  exact h.start (List.mem_getLast?_append_of_mem_getLast? hlast)

theorem Spaced.cons_sign (hsep : Separator sep) (h : Spaced sep back) {c : Char} (hc : Sign c) :
    Spaced sep (c :: back) := by
  have hne : c ≠ sep := hsep.ne_of_sign hc
  refine ⟨List.forall_mem_cons.2 ⟨.inl hc, h.sign_or_sep⟩, h.single.cons fun _ _ => .inl hne, ?_⟩
  cases back with
  | nil => exact fun hlast => hne (Option.some.inj hlast)
  | cons d back =>
    rw [List.getLast?_cons_cons]
    exact h.start

theorem Spaced.cons_sep {last : Char} (h : Spaced sep (last :: back)) (hlast : last ≠ sep) :
    Spaced sep (sep :: last :: back) := by
  refine ⟨List.forall_mem_cons.2 ⟨.inr rfl, h.sign_or_sep⟩, .cons_cons (.inr hlast) h.single, ?_⟩
  rw [List.getLast?_cons_cons]
  exact h.start

theorem Spaced.utf8Size (hsep : Separator sep) (h : Spaced sep back) : ∀ c ∈ back, c.utf8Size = 1 := by
  intro c hc
  rcases h.sign_or_sep c hc with hsign | rfl
  · exact hsign.utf8Size
  · exact utf8Size_of_lt hsep.ascii

/-- The signs that a text has, in small letters. -/
def signs (cs : List Char) : List Char := (cs.filter Char.isAlphanum).map Char.toLower

/-- What a name is while it is written: spaced, and spelling the signs of what was read. -/
structure Spells (sep : Char) (cs back : List Char) : Prop where
  spaced : Spaced sep back
  signs_eq : (back.filter (· ≠ sep)).reverse = signs cs

/-- **A character more** is added if it is a letter or a digit, and else at most opens a gap. -/
theorem Spells.addChar (hsep : Separator sep) {cs : List Char} (h : Spells sep cs back) (c : Char) :
    Spells sep (cs ++ [c]) (Naming.addChar sep back c) := by
  unfold Naming.addChar
  split
  · rename_i hc
    have hsigns : signs (cs ++ [c]) = signs cs ++ [c.toLower] := by simp [signs, hc]
    have hne : c.toLower ≠ sep := hsep.ne_of_sign (sign_toLower hc)
    refine ⟨h.spaced.cons_sign hsep (sign_toLower hc), ?_⟩
    rw [List.filter_cons_of_pos (by simpa using hne), List.reverse_cons, h.signs_eq, hsigns]
  · rename_i hc
    have hsigns : signs (cs ++ [c]) = signs cs := by simp [signs, hc]
    split
    · exact ⟨spaced_nil, h.signs_eq.trans hsigns.symm⟩
    · split
      · exact ⟨h.spaced, h.signs_eq.trans hsigns.symm⟩
      · rename_i hlast
        refine ⟨h.spaced.cons_sep hlast, ?_⟩
        rw [List.filter_cons_of_neg (by simp)]
        exact h.signs_eq.trans hsigns.symm

theorem spells_foldl_addChar (hsep : Separator sep) (cs : List Char) :
    Spells sep cs (cs.foldl (Naming.addChar sep) []) := by
  induction cs using List.reverseRecOn with
  | nil => exact ⟨spaced_nil, rfl⟩
  | append_singleton cs c ih =>
    rw [List.foldl_concat]
    exact ih.addChar hsep c

/-- Writing a spaced name once more leaves it as it is. -/
theorem Spaced.foldl_addChar (hsep : Separator sep) (h : Spaced sep back) :
    back.reverse.foldl (Naming.addChar sep) [] = back := by
  induction back with
  | nil => rfl
  | cons c back ih =>
    rw [List.reverse_cons, List.foldl_concat, ih (h.of_suffix (List.suffix_cons c back))]
    unfold Naming.addChar
    rcases h.sign_or_sep c List.mem_cons_self with hc | rfl
    · rw [if_pos hc.alphanum, hc.small]
    · rw [if_neg (by rw [hsep.not_alphanum]; exact Bool.false_ne_true)]
      cases back with
      | nil => exact absurd rfl h.start
      | cons last back =>
        have hlast := (List.isChain_cons_cons.1 h.single).1
        exact if_neg (hlast.resolve_left fun hne => hne rfl)

/-! ## Cutting -/

/-- What fits from the left is a number of characters, if each is one byte. -/
theorem cut_eq_take {cs : List Char} (h : ∀ c ∈ cs, c.utf8Size = 1) (room : ℕ) :
    cut room cs = cs.take room := by
  induction cs generalizing room with
  | nil => rw [cut, List.take_nil]
  | cons c cs ih =>
    obtain ⟨hc, hcs⟩ := List.forall_mem_cons.1 h
    rw [cut, hc]
    cases room with
    | zero => rfl
    | succ room => rw [if_pos (Nat.le_add_left 1 room), Nat.add_sub_cancel, ih hcs, List.take_succ_cons]

/-- What is kept of a name in reverse: as much as there is room for, without a separator at its end. -/
def kept (sep : Char) (room : ℕ) (back : List Char) : List Char :=
  (back.drop (back.length - room)).dropWhile (· = sep)

theorem kept_suffix (sep : Char) (room : ℕ) (back : List Char) : kept sep room back <:+ back :=
  (List.dropWhile_suffix _).trans (List.drop_suffix _ _)

theorem length_kept_le (sep : Char) (room : ℕ) (back : List Char) :
    (kept sep room back).length ≤ room := by
  have hcut : (back.drop (back.length - room)).length ≤ room := by
    rw [List.length_drop]
    omega
  exact (List.dropWhile_suffix _).length_le.trans hcut

theorem head?_kept_ne (sep : Char) (room : ℕ) (back : List Char) :
    (kept sep room back).head? ≠ some sep := by
  intro hhead
  have hnot := List.head?_dropWhile_not (fun c : Char => decide (c = sep)) (back.drop (back.length - room))
  unfold kept at hhead
  rw [hhead] at hnot
  exact absurd hnot (by simp)

/-- **Something is kept** of a name that is not empty, if there is any room: its first character. -/
theorem kept_eq_nil_iff (h : Spaced sep back) {room : ℕ} (hroom : 0 < room) :
    kept sep room back = [] ↔ back = [] := by
  refine ⟨fun hnil => ?_, fun hnil => by simp [hnil, kept]⟩
  have hall : ∀ c ∈ back.drop (back.length - room), c = sep :=
    fun c hc => of_decide_eq_true (List.dropWhile_eq_nil_iff.1 hnil c hc)
  have hcut := h.of_suffix (List.drop_suffix (back.length - room) back)
  rcases List.eq_nil_or_concat (back.drop (back.length - room)) with hempty | ⟨front, c, hfront⟩
  · have hlength := List.drop_eq_nil_iff.1 hempty
    exact List.length_eq_zero_iff.1 (by omega)
  · -- otherwise a separator would be the character that the name begins with
    rw [List.concat_eq_append] at hfront
    rw [hfront] at hall hcut
    obtain rfl := hall c (List.mem_append_right _ List.mem_cons_self)
    exact absurd List.getLast?_concat hcut.start

/-- Where a name is cut, at most one separator is lost besides. -/
theorem le_length_kept (h : Spaced sep back) {room : ℕ} (hroom : room ≤ back.length) :
    room ≤ (kept sep room back).length + 1 := by
  have hcut := h.of_suffix (List.drop_suffix (back.length - room) back)
  have hlength : (back.drop (back.length - room)).length = room := by
    rw [List.length_drop]
    omega
  unfold kept
  generalize back.drop (back.length - room) = front at hcut hlength
  subst hlength
  cases front with
  | nil => exact Nat.zero_le _
  | cons c front =>
    rw [List.dropWhile_cons]
    split
    · rename_i hc
      obtain rfl := of_decide_eq_true hc
      cases front with
      | nil => exact Nat.le_refl _
      | cons d front =>
        have hd : d ≠ c := (List.isChain_cons_cons.1 hcut.single).1.resolve_left fun hne => hne rfl
        rw [List.dropWhile_cons_of_neg (by simpa using hd)]
        exact Nat.le_refl _
    · exact Nat.le_succ _

/-- A name that is not cut loses no signs. -/
theorem filter_kept {room : ℕ} (hroom : back.length ≤ room) :
    (kept sep room back).filter (· ≠ sep) = back.filter (· ≠ sep) := by
  have hnone : (back.takeWhile (· = sep)).filter (· ≠ sep) = [] :=
    List.filter_eq_nil_iff.2 fun c hc => by simpa using List.mem_takeWhile_imp hc
  calc (kept sep room back).filter (· ≠ sep)
      = (back.dropWhile (· = sep)).filter (· ≠ sep) := by
        rw [kept, Nat.sub_eq_zero_of_le hroom, List.drop_zero]
    _ = (back.takeWhile (· = sep) ++ back.dropWhile (· = sep)).filter (· ≠ sep) := by
        rw [List.filter_append, hnone, List.nil_append]
    _ = back.filter (· ≠ sep) := by rw [List.takeWhile_append_dropWhile]

theorem sanitize_eq (hsep : Separator sep) (s : String) (room : ℕ) :
    sanitize s room sep =
      if (kept sep room (s.toList.foldl (addChar sep) [])).isEmpty then fallback
      else String.ofList (kept sep room (s.toList.foldl (addChar sep) [])).reverse := by
  have hspaced := (spells_foldl_addChar hsep s.toList).spaced
  have hsize : ∀ c ∈ (s.toList.foldl (addChar sep) []).reverse, c.utf8Size = 1 :=
    fun c hc => hspaced.utf8Size hsep c (List.mem_reverse.1 hc)
  unfold sanitize kept
  rw [cut_eq_take hsize, List.take_reverse, List.reverse_reverse]

/-! ## Tidy names -/

/-- A text of words of small letters and digits that are joined by single separators. -/
structure Tidy (sep : Char) (name : String) : Prop where
  ne_empty : name ≠ ""
  made_of : ∀ c ∈ name.toList, c.isLower = true ∨ c.isDigit = true ∨ c = sep
  first : name.toList.head? ≠ some sep
  last : name.toList.getLast? ≠ some sep
  single : name.toList.IsChain fun c d => c ≠ sep ∨ d ≠ sep

theorem Spaced.tidy (h : Spaced sep back) (hne : back ≠ []) (hlast : back.head? ≠ some sep) :
    Tidy sep (String.ofList back.reverse) where
  ne_empty hempty := by
    have hlist := congrArg String.toList hempty
    rw [String.toList_ofList] at hlist
    exact hne (List.reverse_eq_nil_iff.1 hlist)
  made_of c hc := by
    rw [String.toList_ofList, List.mem_reverse] at hc
    rcases h.sign_or_sep c hc with hsign | rfl
    · exact hsign.isLower_or_isDigit.imp_right .inl
    · exact .inr (.inr rfl)
  first := by
    rw [String.toList_ofList, List.head?_reverse]
    exact h.start
  last := by
    rw [String.toList_ofList, List.getLast?_reverse]
    exact hlast
  single := by
    rw [String.toList_ofList, List.isChain_reverse]
    exact h.single.imp fun _ _ => Or.symm

/-- A spaced name that does not end in a separator is left alone, if there is room. -/
theorem Spaced.sanitize (hsep : Separator sep) (h : Spaced sep back) (hne : back ≠ [])
    (hhead : back.head? ≠ some sep) {room : ℕ} (hroom : back.length ≤ room) :
    Naming.sanitize (String.ofList back.reverse) room sep = String.ofList back.reverse := by
  have hkept : kept sep room back = back := by
    unfold kept
    rw [Nat.sub_eq_zero_of_le hroom, List.drop_zero]
    cases back with
    | nil => rfl
    | cons c back =>
      rw [List.dropWhile_cons, if_neg]
      exact fun hc => hhead (congrArg some (of_decide_eq_true hc))
  rw [sanitize_eq hsep, String.toList_ofList, h.foldl_addChar hsep, hkept, List.isEmpty_eq_false_iff.2 hne,
    if_neg Bool.false_ne_true]

theorem spaced_of_signs (hsep : Separator sep) (h : ∀ c ∈ back, Sign c) : Spaced sep back := by
  induction back with
  | nil => exact spaced_nil
  | cons c back ih =>
    obtain ⟨hc, hback⟩ := List.forall_mem_cons.1 h
    exact (ih hback).cons_sign hsep hc

theorem sign_of_mem_fallback {c : Char} (hc : c ∈ fallback.toList.reverse) : Sign c := by
  have hall : fallback.toList.reverse.all (fun d => decide (Sign d)) = true := by decide
  exact of_decide_eq_true (List.all_eq_true.1 hall c hc)

/-- **What is left of a text** is spaced, ends in no separator and fits. -/
theorem exists_spaced (hsep : Separator sep) (s : String) (room : ℕ) : ∃ back, Spaced sep back ∧
    back ≠ [] ∧ back.head? ≠ some sep ∧ back.length ≤ max room 4 ∧
      sanitize s room sep = String.ofList back.reverse := by
  rw [sanitize_eq hsep]
  split
  · refine ⟨fallback.toList.reverse, spaced_of_signs hsep fun _ => sign_of_mem_fallback, by decide,
      fun hhead => ?_, Nat.le_max_right _ _, by rw [List.reverse_reverse, String.ofList_toList]⟩
    exact hsep.ne_of_sign (sign_of_mem_fallback (List.mem_of_mem_head? hhead)) rfl
  · rename_i hne
    have hspaced := (spells_foldl_addChar hsep s.toList).spaced
    exact ⟨_, hspaced.of_suffix (kept_suffix _ _ _), fun hnil => hne (List.isEmpty_iff.2 hnil),
      head?_kept_ne _ _ _, (length_kept_le _ _ _).trans (Nat.le_max_left _ _), rfl⟩

/-- A name spells the signs of its text from the first one on, if there are any, and all of them unless
it has filled the room. -/
theorem signs_sanitize (hsep : Separator sep) {s : String} {room : ℕ} (hroom : 0 < room)
    (hs : ∃ c ∈ s.toList, c.isAlphanum = true) :
    (sanitize s room sep).toList.filter (· ≠ sep) <+: signs s.toList ∧
      ((sanitize s room sep).length + 1 < room →
        (sanitize s room sep).toList.filter (· ≠ sep) = signs s.toList) := by
  have hspells := spells_foldl_addChar hsep s.toList
  have hback : s.toList.foldl (addChar sep) [] ≠ [] := by
    intro hnil
    obtain ⟨c, hc, halphanum⟩ := hs
    have hnone := hspells.signs_eq
    rw [hnil, List.filter_nil, List.reverse_nil] at hnone
    have hmem : c.toLower ∈ signs s.toList := List.mem_map_of_mem (List.mem_filter.2 ⟨hc, halphanum⟩)
    rw [← hnone] at hmem
    exact List.not_mem_nil hmem
  have hkept : kept sep room (s.toList.foldl (addChar sep) []) ≠ [] :=
    fun hnil => hback ((kept_eq_nil_iff hspells.spaced hroom).1 hnil)
  rw [sanitize_eq hsep, List.isEmpty_eq_false_iff.2 hkept, if_neg Bool.false_ne_true, String.toList_ofList,
    String.length_ofList, List.length_reverse, ← hspells.signs_eq, List.filter_reverse]
  refine ⟨List.reverse_prefix.2 ((kept_suffix _ _ _).filter _), fun hlength => ?_⟩
  rcases Nat.le_total (s.toList.foldl (addChar sep) []).length room with hle | hle
  · rw [filter_kept hle]
  · exact absurd (le_length_kept hspells.spaced hle) (Nat.not_le.2 hlength)

/-- **The readable part of a name.**  A text leaves words of small letters and digits that are joined by
single separators and fit into the room; cleaning them again changes nothing; and if the text has letters
or digits, these are what the words spell, from the first one on, and all of them unless the room is
filled. -/
theorem tidy_sanitize (hsep : Separator sep) {room : ℕ} (hroom : 4 ≤ room) (s : String) :
    Tidy sep (sanitize s room sep) ∧ (sanitize s room sep).length ≤ room ∧
      sanitize (sanitize s room sep) room sep = sanitize s room sep ∧
      ((∃ c ∈ s.toList, c.isAlphanum = true) →
        (sanitize s room sep).toList.filter (· ≠ sep) <+:
            (s.toList.filter Char.isAlphanum).map Char.toLower ∧
          ((sanitize s room sep).length + 1 < room →
            (sanitize s room sep).toList.filter (· ≠ sep) =
              (s.toList.filter Char.isAlphanum).map Char.toLower)) := by
  obtain ⟨back, hspaced, hne, hhead, hlength, hname⟩ := exists_spaced hsep s room
  rw [Nat.max_eq_left hroom] at hlength
  refine ⟨?_, ?_, ?_, signs_sanitize hsep (Nat.lt_of_lt_of_le (by decide) hroom)⟩
  · rw [hname]
    exact hspaced.tidy hne hhead
  · rw [hname, String.length_ofList, List.length_reverse]
    exact hlength
  · rw [hname]
    exact hspaced.sanitize hsep hne hhead hlength

/-- A text with letters outside the alphabet, cut where a separator would be left at the end. -/
theorem tidy_sanitize_cut :
    Separator '_' ∧ 4 ≤ 5 ∧ (∃ c ∈ "Größe: Clean v2".toList, c.isAlphanum = true) ∧
      sanitize "Größe: Clean v2" 5 '_' = "gr_e" ∧ Tidy '_' "gr_e" ∧ "gr_e".length ≤ 5 ∧
      sanitize "gr_e" 5 '_' = "gr_e" ∧
      "gr_e".toList.filter (· ≠ '_') <+:
        ("Größe: Clean v2".toList.filter Char.isAlphanum).map Char.toLower := by
  have hsep : Separator '_' := ⟨by decide, rfl⟩
  have hsome : ∃ c ∈ "Größe: Clean v2".toList, c.isAlphanum = true := ⟨'G', by decide, rfl⟩
  have hname : sanitize "Größe: Clean v2" 5 '_' = "gr_e" := by decide
  obtain ⟨htidy, hlength, hagain, hsigns⟩ := tidy_sanitize hsep (show 4 ≤ 5 by decide) "Größe: Clean v2"
  rw [hname] at htidy hlength hagain hsigns
  exact ⟨hsep, by decide, hsome, hname, htidy, hlength, hagain, (hsigns hsome).1⟩

end

end Naming

end Provenance
