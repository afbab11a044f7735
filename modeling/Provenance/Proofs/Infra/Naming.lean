import Mathlib.Data.List.Basic
import Mathlib.Tactic.IntervalCases
import Provenance.Proofs.Infra.Readable

/-!
# What a name tells

A name ends in eight digits, so two names that are equal end in one digest: of a location for storage
(`storage_digest`), of an output for a step (`step_digest`).  The readable part tells nothing, since it
is cut and cleaned.

Cleaning a name again changes nothing, as long as there is room for it (`sanitize_storage`).  For its
readable part this is so with every separator; here the separator is a dash, and a name that is spaced by
dashes is described by its characters one after the other (`Clean`, `clean_iff`).

The text and the identity of an address join its name and its location with different signs.  Each of
them alone can be that of another address as well, but not both (`eq_of_text_of_identity`).
-/

namespace Provenance

/-! ## Addresses -/

namespace Address

/-- Where a sign joins two lists in two ways, and another sign joins the same ones, the lists are the
same. -/
theorem eq_of_joined {a b : Char} (hab : a ≠ b) {n n' l l' : List Char}
    (ha : n ++ a :: l = n' ++ a :: l') (hb : n ++ b :: l = n' ++ b :: l') : n = n' ∧ l = l' := by
  rcases Nat.lt_trichotomy n.length n'.length with hlt | heq | hgt
  · have hleft := congrArg (·[n.length]?) ha
    have hright := congrArg (·[n.length]?) hb
    simp only [List.getElem?_append_left hlt, List.getElem?_append_right (Nat.le_refl _),
      Nat.sub_self, List.getElem?_cons_zero] at hleft hright
    exact absurd (Option.some.inj (hleft.trans hright.symm)) hab
  · obtain ⟨hn, hl⟩ := List.append_inj ha heq
    exact ⟨hn, (List.cons.inj hl).2⟩
  · have hleft := congrArg (·[n'.length]?) ha
    have hright := congrArg (·[n'.length]?) hb
    simp only [List.getElem?_append_left hgt, List.getElem?_append_right (Nat.le_refl _),
      Nat.sub_self, List.getElem?_cons_zero] at hleft hright
    exact absurd (Option.some.inj (hleft.symm.trans hright)) hab

theorem text_toList (a : Address) : a.text.toList = a.name.toList ++ '@' :: a.location.toList := by
  unfold text
  rw [String.toList_append, String.toList_append, List.append_assoc]
  rfl

theorem identity_toList (a : Address) :
    (Naming.identity a).toList = a.name.toList ++ '|' :: a.location.toList := by
  unfold Naming.identity
  rw [String.toList_append, String.toList_append, List.append_assoc]
  rfl

/-- **The text and the identity of an address tell it apart**, though neither does alone. -/
theorem eq_of_text_of_identity {a b : Address} (htext : a.text = b.text)
    (hidentity : Naming.identity a = Naming.identity b) : a = b := by
  have ht := congrArg String.toList htext
  have hi := congrArg String.toList hidentity
  rw [text_toList, text_toList] at ht
  rw [identity_toList, identity_toList] at hi
  obtain ⟨hname, hlocation⟩ := eq_of_joined (by decide) ht hi
  cases a
  cases b
  rw [mk.injEq]
  exact ⟨String.toList_inj.1 hname, String.toList_inj.1 hlocation⟩

/-- The text tells apart the addresses of one location. -/
theorem eq_of_text_of_location {a b : Address} (htext : a.text = b.text)
    (hlocation : a.location = b.location) : a = b := by
  have ht := congrArg String.toList htext
  rw [text_toList, text_toList, hlocation] at ht
  have hname := (List.append_inj' ht rfl).1
  cases a
  cases b
  rw [mk.injEq]
  exact ⟨String.toList_inj.1 hname, hlocation⟩

end Address

namespace Naming

/-! ## Digests -/

theorem sign_hexDigit {n : ℕ} (hn : n < 16) : Sign (Text.hexDigit n) := by
  interval_cases n <;> exact ⟨rfl, rfl⟩

theorem hexByte_toList (n : ℕ) :
    (Hash.Blake3.hexByte n).toList = [Text.hexDigit (n / 16 % 16), Text.hexDigit (n % 16)] :=
  String.toList_ofList

theorem sign_of_mem_hex {bytes : List UInt8} {c : Char} (hc : c ∈ (Hash.Blake3.hex bytes).toList) :
    Sign c := by
  unfold Hash.Blake3.hex at hc
  rw [String.toList_join, List.mem_flatMap] at hc
  obtain ⟨s, hs, hc⟩ := hc
  obtain ⟨w, -, hs⟩ := List.mem_flatMap.1 hs
  obtain ⟨shift, -, rfl⟩ := List.mem_map.1 hs
  rw [hexByte_toList] at hc
  rcases List.mem_pair.1 hc with rfl | rfl
  · exact sign_hexDigit (Nat.mod_lt _ (by decide))
  · exact sign_hexDigit (Nat.mod_lt _ (by decide))

theorem size_compress (n : Hash.Blake3.Node) (extra : UInt32) : (n.compress extra).size = 8 := by
  simp [Hash.Blake3.Node.compress]

/-- A hash has two digits for each of its thirty-two bytes. -/
theorem length_hex (bytes : List UInt8) : (Hash.Blake3.hex bytes).toList.length = 64 := by
  have hwords : ∀ words : List UInt32, (String.join (words.flatMap fun w =>
      [0, 8, 16, 24].map fun shift => Hash.Blake3.hexByte (w.toNat >>> shift))).toList.length =
        8 * words.length := by
    intro words
    rw [String.toList_join]
    induction words with
    | nil => rfl
    | cons w words ih =>
      rw [List.flatMap_cons, List.flatMap_append, List.length_append, ih, List.length_cons]
      simp only [List.map_cons, List.map_nil, List.flatMap_cons, List.flatMap_nil, List.length_append,
        hexByte_toList, List.length_cons, List.length_nil]
      omega
  unfold Hash.Blake3.hex
  rw [hwords, Array.length_toList, size_compress]

theorem digest_toList (s : String) :
    (digest s).toList = (Hash.Blake3.hex (Text.encode s)).toList.take digestLength :=
  String.toList_ofList

theorem sign_of_mem_digest {s : String} {c : Char} (hc : c ∈ (digest s).toList) : Sign c := by
  rw [digest_toList] at hc
  exact sign_of_mem_hex (List.mem_of_mem_take hc)

theorem length_digest (s : String) : (digest s).toList.length = digestLength := by
  rw [digest_toList, List.length_take, length_hex]
  rfl

/-- Names that end in digests end in one if they are equal. -/
theorem digest_eq_of_append {lead lead' s s' : String} (h : lead ++ digest s = lead' ++ digest s') :
    digest s = digest s' := by
  have hlist := congrArg String.toList h
  rw [String.toList_append, String.toList_append] at hlist
  have hlength : (digest s).toList.length = (digest s').toList.length := by
    rw [length_digest, length_digest]
  exact String.toList_inj.1 (List.append_inj' hlist hlength).2

/-- Storage of one name is of locations with one digest. -/
theorem storage_digest {a b : Address} {room room' : ℕ} {sep : Char}
    (h : storage a room sep = storage b room' sep) : digest a.location = digest b.location :=
  digest_eq_of_append h

/-- Steps of one name have outputs with one digest. -/
theorem step_digest {s t : Step} {room room' : ℕ} {sep : Char} (h : step s room sep = step t room' sep) :
    digest (identity s.output.address) = digest (identity t.output.address) :=
  digest_eq_of_append h

/-! ## Clean names -/

theorem separator_dash : Separator '-' := ⟨by decide, rfl⟩

/-- Names in reverse that are spaced by dashes, character by character. -/
inductive Clean : List Char → Prop
  | nil : Clean []
  | sign {c : Char} {back : List Char} : Sign c → Clean back → Clean (c :: back)
  | sep {c : Char} {back : List Char} : c ≠ '-' → Clean (c :: back) → Clean ('-' :: c :: back)

theorem clean_iff {back : List Char} : Clean back ↔ Spaced '-' back := by
  constructor
  · intro h
    induction h with
    | nil => exact spaced_nil
    | sign hc _ ih => exact ih.cons_sign separator_dash hc
    | sep hc _ ih => exact ih.cons_sep hc
  · intro h
    induction back with
    | nil => exact .nil
    | cons c back ih =>
      have hback := ih (h.of_suffix (List.suffix_cons c back))
      rcases h.sign_or_sep c List.mem_cons_self with hc | rfl
      · exact .sign hc hback
      · cases back with
        | nil => exact absurd rfl h.start
        | cons last back =>
          have hlast := (List.isChain_cons_cons.1 h.single).1
          exact .sep (hlast.resolve_left fun hne => hne rfl) hback

theorem Clean.append {digits back : List Char} (h : Clean back) (hdigits : ∀ c ∈ digits, Sign c) :
    Clean (digits ++ back) := by
  induction digits with
  | nil => exact h
  | cons c digits ih =>
    obtain ⟨hc, hdigits⟩ := List.forall_mem_cons.1 hdigits
    exact .sign hc (ih hdigits)

theorem Clean.utf8Size {back : List Char} (h : Clean back) : ∀ c ∈ back, c.utf8Size = 1 :=
  (clean_iff.1 h).utf8Size separator_dash

/-- A clean name that does not end in a separator is left alone, if there is room. -/
theorem Clean.sanitize {back : List Char} (h : Clean back) (hne : back ≠ [])
    (hhead : back.head? ≠ some '-') {room : ℕ} (hroom : back.length ≤ room) :
    Naming.sanitize (String.ofList back.reverse) room '-' = String.ofList back.reverse :=
  (clean_iff.1 h).sanitize separator_dash hne hhead hroom

/-- What is left of a text is clean, ends in no separator and fits. -/
theorem exists_sanitize (s : String) (room : ℕ) : ∃ back, Clean back ∧ back ≠ [] ∧
    back.head? ≠ some '-' ∧ back.length ≤ max room 4 ∧
      Naming.sanitize s room '-' = String.ofList back.reverse := by
  obtain ⟨back, hspaced, hrest⟩ := exists_spaced separator_dash s room
  exact ⟨back, clean_iff.2 hspaced, hrest⟩

/-- What is left of a text, with a digest behind it, is clean, ends in no separator and fits. -/
theorem exists_name (readable s : String) (room : ℕ) : ∃ back, Clean back ∧ back ≠ [] ∧
    back.head? ≠ some '-' ∧ back.length ≤ max room 4 + (digestLength + 1) ∧
      Naming.sanitize readable room '-' ++ '-'.toString ++ digest s = String.ofList back.reverse := by
  obtain ⟨back, hclean, hne, hhead, hlength, hname⟩ := exists_sanitize readable room
  have hdigits : ∀ c ∈ (digest s).toList.reverse, Sign c :=
    fun c hc => sign_of_mem_digest (List.mem_reverse.1 hc)
  have hsize : (digest s).toList.reverse.length = digestLength := by
    rw [List.length_reverse, length_digest]
  obtain ⟨last, rest, rfl⟩ := List.exists_cons_of_ne_nil hne
  refine ⟨(digest s).toList.reverse ++ '-' :: last :: rest, ?_, ?_, ?_, ?_, ?_⟩
  · exact Clean.append (.sep (fun hlast => hhead (congrArg some hlast)) hclean) hdigits
  · exact List.append_ne_nil_of_right_ne_nil _ (List.cons_ne_nil _ _)
  · cases hdigest : (digest s).toList.reverse with
    | nil => exact absurd (hsize.symm.trans (congrArg List.length hdigest)) (by decide)
    | cons c digits =>
      have hc : Sign c := hdigits c (hdigest ▸ List.mem_cons_self)
      exact fun hlast => separator_dash.ne_of_sign hc (Option.some.inj hlast)
  · rw [List.length_append, hsize, List.length_cons]
    omega
  · refine String.toList_inj.1 ?_
    have hsep : '-'.toString.toList = ['-'] := by decide
    rw [hname, String.toList_append, String.toList_append, String.toList_ofList, String.toList_ofList,
      List.reverse_append, List.reverse_reverse, List.reverse_cons (a := '-'), hsep]

/-- **The name of storage is left alone**, if there is room. -/
theorem sanitize_storage (a : Address) {room room' : ℕ}
    (hroom : max (budget room) 4 + (digestLength + 1) ≤ room') :
    Naming.sanitize (storage a room '-') room' '-' = storage a room '-' := by
  obtain ⟨back, hclean, hne, hhead, hlength, hname⟩ := exists_name a.name a.location (budget room)
  unfold storage
  rw [hname]
  exact hclean.sanitize hne hhead (Nat.le_trans hlength hroom)

theorem utf8ByteSize_ofList : ∀ {cs : List Char}, (∀ c ∈ cs, c.utf8Size = 1) →
    (String.ofList cs).utf8ByteSize = cs.length
  | [], _ => rfl
  | c :: cs, h => by
    obtain ⟨hc, hcs⟩ := List.forall_mem_cons.1 h
    rw [String.ofList_cons, String.utf8ByteSize_append, String.utf8ByteSize_singleton, hc,
      utf8ByteSize_ofList hcs, List.length_cons, Nat.add_comm]

/-- The name of a step has no more bytes than there is room for. -/
theorem utf8ByteSize_step (s : Step) (room : ℕ) :
    (step s room '-').utf8ByteSize ≤ max (budget room) 4 + (digestLength + 1) := by
  obtain ⟨back, hclean, -, -, hlength, hname⟩ := exists_name (s.task.name ++ "-" ++ s.output.address.name)
    (identity s.output.address) (budget room)
  unfold step
  dsimp only
  rw [hname, utf8ByteSize_ofList fun c hc => hclean.utf8Size c (List.mem_reverse.1 hc), List.length_reverse]
  exact hlength

end Naming

end Provenance
