import Provenance.Proofs.Infra.Naming

/-!
# Slugs

The names of resources are put together from readable parts, digests and fixed words, each joined to the
next by a separator.  Every piece is a *slug*: words of small letters and digits with single separators
between them.  Joining two slugs by a separator gives a slug again (`Slug.append`), so nothing has to be
known of how a piece came about; and of the lengths it is enough to know a bound for each piece (`Named`).
-/

namespace Provenance

namespace Naming

/-! ## Slugs -/

/-- A text of words that are joined by single separators: it is not empty, begins and ends with a small
letter or a digit, and never has two separators in a row. -/
inductive Slug : List Char → Prop
  | single {c : Char} : Sign c → Slug [c]
  | sign {c : Char} {cs : List Char} : Sign c → Slug cs → Slug (c :: cs)
  | sep {c : Char} {cs : List Char} : Sign c → Slug cs → Slug (c :: '-' :: cs)

/-- **Slugs that are joined by a separator are a slug.** -/
theorem Slug.append {cs ds : List Char} (hcs : Slug cs) (hds : Slug ds) : Slug (cs ++ '-' :: ds) := by
  induction hcs with
  | single hc => exact .sep hc hds
  | sign hc _ ih => exact .sign hc ih
  | sep hc _ ih => exact .sep hc ih

theorem Slug.snoc {cs : List Char} (hcs : Slug cs) {d : Char} (hd : Sign d) : Slug (cs ++ [d]) := by
  induction hcs with
  | single hc => exact .sign hc (.single hd)
  | sign hc _ ih => exact .sign hc ih
  | sep hc _ ih => exact .sep hc ih

theorem slug_of_signs : ∀ {cs : List Char}, cs ≠ [] → (∀ c ∈ cs, Sign c) → Slug cs
  | [], hne, _ => absurd rfl hne
  | [c], _, h => .single (h c List.mem_cons_self)
  | c :: d :: cs, _, h =>
    .sign (h c List.mem_cons_self)
      (slug_of_signs (List.cons_ne_nil d cs) fun e he => h e (List.mem_cons_of_mem c he))

/-- A clean name in reverse is empty, or a slug, or a slug with an open separator behind it. -/
theorem Clean.cases_slug {back : List Char} (h : Clean back) :
    back = [] ∨ Slug back.reverse ∨ ∃ rest, back = '-' :: rest ∧ Slug rest.reverse := by
  induction h with
  | nil => exact .inl rfl
  | @sign c back hc _ ih =>
    refine .inr (.inl ?_)
    rw [List.reverse_cons]
    rcases ih with rfl | hslug | ⟨rest, rfl, hslug⟩
    · exact .single hc
    · exact hslug.snoc hc
    · rw [List.reverse_cons, List.append_assoc]
      exact hslug.append (.single hc)
  | @sep c back hc _ ih =>
    refine .inr (.inr ⟨c :: back, rfl, ?_⟩)
    rcases ih with hnil | hslug | ⟨rest, hsep, -⟩
    · exact absurd hnil (List.cons_ne_nil c back)
    · exact hslug
    · exact absurd (List.cons.inj hsep).1 hc

/-- A clean name in reverse that is not left open is a slug. -/
theorem Clean.slug {back : List Char} (h : Clean back) (hne : back ≠ []) (hhead : back.head? ≠ some '-') :
    Slug back.reverse := by
  rcases h.cases_slug with hnil | hslug | ⟨rest, rfl, -⟩
  · exact absurd hnil hne
  · exact hslug
  · exact absurd rfl hhead

theorem Slug.sign_or_sep {cs : List Char} (h : Slug cs) : ∀ c ∈ cs, Sign c ∨ c = '-' := by
  induction h with
  | single hc => exact List.forall_mem_singleton.2 (.inl hc)
  | sign hc _ ih => exact List.forall_mem_cons.2 ⟨.inl hc, ih⟩
  | sep hc _ ih => exact List.forall_mem_cons.2 ⟨.inl hc, List.forall_mem_cons.2 ⟨.inr rfl, ih⟩⟩

theorem Slug.utf8Size {cs : List Char} (h : Slug cs) : ∀ c ∈ cs, c.utf8Size = 1 := by
  induction h with
  | single hc => exact List.forall_mem_singleton.2 hc.utf8Size
  | sign hc _ ih => exact List.forall_mem_cons.2 ⟨hc.utf8Size, ih⟩
  | sep hc _ ih => exact List.forall_mem_cons.2 ⟨hc.utf8Size, List.forall_mem_cons.2 ⟨rfl, ih⟩⟩

/-! ## Slugs of a length -/

/-- A slug of at most `room` characters. -/
structure Named (room : ℕ) (s : String) : Prop where
  slug : Slug s.toList
  length_le : s.length ≤ room

variable {room room' : ℕ} {s t : String}

theorem Named.mono (h : Named room s) (hroom : room ≤ room') : Named room' s :=
  ⟨h.slug, h.length_le.trans hroom⟩

theorem Named.append (hs : Named room s) (ht : Named room' t) :
    Named (room + 1 + room') (s ++ "-" ++ t) where
  slug := by
    rw [String.toList_append, String.toList_append, List.append_assoc]
    exact hs.slug.append ht.slug
  length_le := by
    have hsep : "-".length = 1 := rfl
    rw [String.length_append, String.length_append, hsep]
    exact Nat.add_le_add (Nat.add_le_add_right hs.length_le 1) ht.length_le

theorem Named.utf8ByteSize_eq (h : Named room s) : s.utf8ByteSize = s.length := by
  have hsize := utf8ByteSize_ofList h.slug.utf8Size
  rwa [String.ofList_toList, String.length_toList] at hsize

/-- A word without separators. -/
theorem named_of_signs (hne : s.toList ≠ []) (hs : s.toList.all (fun c => decide (Sign c)) = true) :
    Named s.length s :=
  ⟨slug_of_signs hne fun c hc => of_decide_eq_true (List.all_eq_true.1 hs c hc), le_rfl⟩

/-- A word that is put behind a slug, with a separator in front of it. -/
theorem Named.ending {ending : String} (h : Named room s) (word : String) (hending : ending = "-" ++ word)
    (hne : word.toList ≠ []) (hword : word.toList.all (fun c => decide (Sign c)) = true) :
    Named (room + 1 + word.length) (s ++ ending) := by
  rw [hending, ← String.append_assoc]
  exact h.append (named_of_signs hne hword)

theorem named_of_clean {back : List Char} (h : Clean back) (hne : back ≠ [])
    (hhead : back.head? ≠ some '-') (hlength : back.length ≤ room) (hs : s = String.ofList back.reverse) :
    Named room s := by
  subst hs
  refine ⟨?_, ?_⟩
  · rw [String.toList_ofList]
    exact h.slug hne hhead
  · rwa [String.length_ofList, List.length_reverse]

/-- What is left of a text is a slug that fits. -/
theorem named_sanitize (s : String) (room : ℕ) (hroom : 4 ≤ room) : Named room (sanitize s room '-') := by
  obtain ⟨back, hclean, hne, hhead, hlength, hname⟩ := exists_sanitize s room
  exact named_of_clean hclean hne hhead (hlength.trans (Nat.max_le.2 ⟨le_rfl, hroom⟩)) hname

/-- What is left of a text with a digest behind it is a slug that fits. -/
theorem named_of_digest (readable s : String) (hroom : 13 ≤ room) :
    Named room (sanitize readable (budget room) '-' ++ '-'.toString ++ digest s) := by
  obtain ⟨back, hclean, hne, hhead, hlength, hname⟩ := exists_name readable s (budget room)
  refine named_of_clean hclean hne hhead (hlength.trans ?_) hname
  unfold budget digestLength
  omega

theorem named_storage (a : Address) (room : ℕ) (hroom : 13 ≤ room) : Named room (storage a room '-') :=
  named_of_digest _ _ hroom

theorem named_step (s : Step) (hroom : 13 ≤ room) : Named room (step s room '-') :=
  named_of_digest _ _ hroom

theorem named_digest (s : String) : Named digestLength (digest s) := by
  have hlength := length_digest s
  refine ⟨slug_of_signs (fun hnil => ?_) fun c hc => sign_of_mem_digest hc, hlength.le⟩
  rw [hnil] at hlength
  exact absurd hlength (by decide)

end Naming

end Provenance
