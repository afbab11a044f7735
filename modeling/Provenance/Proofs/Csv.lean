import Provenance.Csv.Reader
import Provenance.Csv.Writer
import Provenance.Proofs.Text.Utf8

/-!
# What is written as comma-separated text is read back

The reader goes over bytes and the writer over characters, so the records are followed as bytes.  `Reads`
says what the reader makes of the bytes in front of it, wherever in a text they stand: the positions that a
cursor counts for its faults are left out.  A statement about a text is then built from its end: what the
reader makes of a comma, a field, a line, given what it makes of the rest.

A field can end in three places, at its start, in bare text or behind a quote, and a comma or a line feed
means the same in all of them; `Reads.field` asks no more of the place than that.  Two records need care at
their front.  One without characters would be an empty line, and is written as two quotes
(`Reads.record`); and a text whose first character is a mark of byte order loses it, so the first field
must not begin with one (`fields_rawRecords`).
-/

namespace Provenance.Csv

/-! ### Reading, whatever the position -/

/-- From a place in a record, with the field so far and the fields before it in reverse, the reader makes
the records `out` of the bytes. -/
def Reads (p : Place) (field : List UInt8) (fields : List (List UInt8)) (bytes : List UInt8)
    (out : List (List (List UInt8))) : Prop :=
  ∀ c : Cursor, c.field = field → c.fields = fields → (scan p c bytes).map Raw.fields = out

section Reads

variable {p next : Place} {b : UInt8} {field bytes rest : List UInt8} {fields : List (List UInt8)}
  {out : List (List (List UInt8))}

theorem Reads.nil : Reads .between [] [] [] [] := fun _ _ _ => rfl

theorem Reads.drop (hm : move p b = .drop next) (h : Reads next field fields rest out) :
    Reads p field fields (b :: rest) out := by
  intro c hfield hfields
  simp only [scan, hm]
  exact h (c.pass b) hfield hfields

theorem Reads.keep (hm : move p b = .keep next) (h : Reads next (b :: field) fields rest out) :
    Reads p field fields (b :: rest) out := by
  intro c hfield hfields
  simp only [scan, hm]
  exact h { c.pass b with field := b :: (c.pass b).field } (congrArg (b :: ·) hfield) hfields

/-- A comma ends the field. -/
theorem Reads.comma (hm : move p 44 = bareMove 44)
    (h : Reads .start [] (field.reverse :: fields) rest out) :
    Reads p field fields (44 :: rest) out := by
  intro c hfield hfields
  have hend : move p 44 = .endField := hm
  simp only [scan, hend]
  refine h _ rfl ?_
  change c.field.reverse :: c.fields = _
  rw [hfield, hfields]

/-- A line feed ends the record. -/
theorem Reads.lineFeed (hm : move p 10 = bareMove 10) (h : Reads .between [] [] rest out) :
    Reads p field fields (10 :: rest) ((field.reverse :: fields).reverse :: out) := by
  intro c hfield hfields
  have hend : move p 10 = .endRecord := hm
  simp only [scan, hend, List.map_cons]
  rw [h (c.pass 10).next rfl rfl]
  change (c.field.reverse :: c.fields).reverse :: out = _
  rw [hfield, hfields]

/-- Bytes that the reader keeps where it stands go into the field. -/
theorem Reads.keepAll (hm : ∀ b ∈ bytes, move p b = .keep p)
    (h : Reads p (bytes.reverse ++ field) fields rest out) :
    Reads p field fields (bytes ++ rest) out := by
  induction bytes generalizing field with
  | nil => exact h
  | cons b bytes ih =>
    refine Reads.keep (hm b List.mem_cons_self) (ih (fun b' hb' => hm b' (List.mem_cons_of_mem b hb'))
      ?_)
    rwa [List.reverse_cons, List.append_assoc] at h

/-- Between records the reader starts a record with any byte that ends no line. -/
theorem Reads.between_of_start (hb : isLineEnd b = false)
    (h : Reads .start field fields (b :: rest) out) : Reads .between field fields (b :: rest) out := by
  intro c hfield hfields
  have hmove : move .between b = move .start b := by rw [move, hb]; rfl
  rw [← h c hfield hfields]
  simp only [scan, hmove]

end Reads

/-! ### Characters as bytes -/

/-- A character is kept in a bare field unless a bare field cannot hold it. -/
theorem bareMove_of_mem {c : Char} (hc : special c = false) {b : UInt8}
    (hb : b ∈ String.utf8EncodeChar c) : b ≠ 34 ∧ bareMove b = .keep .bare := by
  simp only [special, Bool.or_eq_false_iff, beq_eq_false_iff_ne] at hc
  obtain ⟨⟨⟨hcomma, hquote⟩, hfeed⟩, hreturn⟩ := hc
  have h44 : b ≠ 44 := Text.ne_of_mem_utf8EncodeChar hb (by decide) hcomma
  have h10 : b ≠ 10 := Text.ne_of_mem_utf8EncodeChar hb (by decide) hfeed
  have h13 : b ≠ 13 := Text.ne_of_mem_utf8EncodeChar hb (by decide) hreturn
  have h34 : b ≠ 34 := Text.ne_of_mem_utf8EncodeChar hb (by decide) hquote
  exact ⟨h34, by simp [bareMove, isLineEnd, h44, h10, h13]⟩

/-- Inside quotes every character is kept, a quote that is written twice as one. -/
theorem Reads.doubled {cs : List Char} {field rest : List UInt8} {fields : List (List UInt8)}
    {out : List (List (List UInt8))}
    (h : Reads .quoted ((cs.flatMap String.utf8EncodeChar).reverse ++ field) fields rest out) :
    Reads .quoted field fields ((doubled cs).flatMap String.utf8EncodeChar ++ rest) out := by
  induction cs generalizing field with
  | nil => exact h
  | cons c cs ih =>
    rw [List.flatMap_cons, List.reverse_append, List.append_assoc] at h
    unfold Csv.doubled
    split
    · rename_i hc
      subst hc
      exact Reads.drop rfl (Reads.keep rfl (ih h))
    · rename_i hc
      rw [List.flatMap_cons, List.append_assoc]
      refine Reads.keepAll (fun b hb => ?_) (ih h)
      have h34 : b ≠ 34 := Text.ne_of_mem_utf8EncodeChar hb (by decide) hc
      simp [move, h34]

/-! ### Fields -/

/-- The reader goes over characters that a bare field can hold.  The first byte is read at the start of
the field and the others in bare text, unless there are none. -/
theorem Reads.bare {cs : List Char} (hcs : ∀ c ∈ cs, special c = false) {b : UInt8} (hb : b ≠ 34)
    {rest : List UInt8} {fields : List (List UInt8)} {out : List (List (List UInt8))}
    (h : ∀ p, move p b = bareMove b →
      Reads p (cs.flatMap String.utf8EncodeChar).reverse fields (b :: rest) out) :
    Reads .start [] fields (cs.flatMap String.utf8EncodeChar ++ b :: rest) out := by
  have hkeep : ∀ b' ∈ cs.flatMap String.utf8EncodeChar, b' ≠ 34 ∧ bareMove b' = .keep .bare := by
    intro b' hb'
    obtain ⟨c, hc, hb'⟩ := List.mem_flatMap.1 hb'
    exact bareMove_of_mem (hcs c hc) hb'
  cases hbytes : cs.flatMap String.utf8EncodeChar with
  | nil =>
    rw [hbytes] at h
    exact h .start (by simp [move, startMove, hb])
  | cons b₀ bs =>
    rw [hbytes] at h hkeep
    obtain ⟨h34, hmove⟩ := hkeep b₀ List.mem_cons_self
    have hfirst : move .start b₀ = .keep .bare := by simp [move, startMove, h34, hmove]
    refine Reads.keep hfirst ?_
    refine Reads.keepAll (fun b' hb' => (hkeep b' (List.mem_cons_of_mem b₀ hb')).2) ?_
    rw [← List.reverse_cons]
    exact h .bare rfl

/-- The reader goes over a field as it is written and stands at one of its ends; a byte behind it means
there what it means behind bare text, unless it is a quote. -/
theorem Reads.field {f : String} {b : UInt8} (hb : b ≠ 34) {rest : List UInt8}
    {fields : List (List UInt8)} {out : List (List (List UInt8))}
    (h : ∀ p, move p b = bareMove b → Reads p (Text.encode f).reverse fields (b :: rest) out) :
    Reads .start [] fields ((opened f ++ closing f).flatMap String.utf8EncodeChar ++ b :: rest) out := by
  rw [List.flatMap_append, List.append_assoc]
  simp only [Text.encode_eq] at h
  unfold opened closing
  by_cases hq : needsQuotes f = true
  · rw [if_pos hq, if_pos hq]
    refine Reads.drop rfl (Reads.doubled (Reads.drop rfl ?_))
    rw [List.append_nil]
    exact h .closed (by simp [move, hb])
  · rw [if_neg hq, if_neg hq]
    exact Reads.bare (by simpa [needsQuotes] using hq) hb h

/-! ### Records -/

/-- The characters of a record before it is looked whether there are any. -/
def line (fields : List String) : List Char :=
  openedRecord fields ++ ((fields.getLast?).map closing).getD []

theorem line_singleton (f : String) : line [f] = opened f ++ closing f := rfl

theorem line_cons_cons (f g : String) (fields : List String) :
    line (f :: g :: fields) = opened f ++ closing f ++ ',' :: line (g :: fields) := by
  unfold line
  rw [List.getLast?_cons_cons, openedRecord]
  · simp
  · exact List.cons_ne_nil g fields

/-- The reader goes over a line. -/
theorem Reads.line {rest : List UInt8} {out : List (List (List UInt8))}
    (h : Reads .between [] [] rest out) : ∀ (f : String) (fs : List String) (fields : List (List UInt8)),
      Reads .start [] fields ((line (f :: fs)).flatMap String.utf8EncodeChar ++ 10 :: rest)
        ((fields.reverse ++ (f :: fs).map Text.encode) :: out)
  | f, [], fields => by
    rw [line_singleton]
    refine Reads.field (by decide) fun p hp => ?_
    rw [List.map_singleton, ← List.reverse_cons]
    have hread : Reads p (Text.encode f).reverse fields (10 :: rest)
        (((Text.encode f).reverse.reverse :: fields).reverse :: out) := Reads.lineFeed hp h
    rwa [List.reverse_reverse] at hread
  | f, g :: fs, fields => by
    rw [line_cons_cons, List.flatMap_append, List.append_assoc]
    refine Reads.field (b := 44) (by decide) fun p hp => Reads.comma hp ?_
    have hread := Reads.line h g fs (Text.encode f :: fields)
    rw [List.reverse_cons, List.append_assoc] at hread
    rwa [List.reverse_reverse]

/-- A record is its line, unless that is empty. -/
theorem record_eq (fields : List String) :
    record fields = (if (line fields).isEmpty then ['"', '"'] else line fields) ++ ['\n'] := rfl

/-- Only one field without characters makes an empty line. -/
theorem eq_of_isEmpty_line {f : String} {fs : List String} (h : (line (f :: fs)).isEmpty = true) :
    f = "" ∧ fs = [] := by
  cases fs with
  | cons g fs => simp [line_cons_cons] at h
  | nil =>
    refine ⟨?_, rfl⟩
    rw [line_singleton, List.isEmpty_iff, List.append_eq_nil_iff] at h
    unfold opened at h
    split at h
    · exact absurd h.1 (List.cons_ne_nil _ _)
    · exact String.toList_eq_nil_iff.1 h.1

/-- The first character of a record is a quote, or a comma, or the first character of the first field,
which then stands bare. -/
theorem exists_head_record (f : String) (fs : List String) :
    ∃ c cs, record (f :: fs) = c :: cs ∧
      (c = '"' ∨ c = ',' ∨ special c = false ∧ f.toList.head? = some c) := by
  obtain ⟨rest, hline, hrest⟩ : ∃ rest, line (f :: fs) = opened f ++ (closing f ++ rest) ∧
      (rest = [] ∨ ∃ cs, rest = ',' :: cs) := by
    cases fs with
    | nil => exact ⟨[], by rw [line_singleton, List.append_nil], .inl rfl⟩
    | cons g fs =>
      exact ⟨',' :: line (g :: fs), by rw [line_cons_cons, List.append_assoc], .inr ⟨_, rfl⟩⟩
  rw [record_eq, hline]
  unfold opened closing
  by_cases hq : needsQuotes f = true
  · rw [if_pos hq, if_pos hq]
    exact ⟨'"', _, rfl, .inl rfl⟩
  · rw [if_neg hq, if_neg hq]
    have hbare : ∀ c ∈ f.toList, special c = false := by simpa [needsQuotes] using hq
    cases hf : f.toList with
    | cons c cs => exact ⟨c, _, rfl, .inr (.inr ⟨hbare c (hf ▸ List.mem_cons_self), rfl⟩)⟩
    | nil =>
      rcases hrest with rfl | ⟨cs, rfl⟩
      · exact ⟨'"', _, rfl, .inl rfl⟩
      · exact ⟨',', _, rfl, .inr (.inl rfl)⟩

/-- The first byte of a record ends no line. -/
theorem exists_head_bytes (f : String) (fs : List String) :
    ∃ b bs, (record (f :: fs)).flatMap String.utf8EncodeChar = b :: bs ∧ isLineEnd b = false := by
  obtain ⟨c, cs, hrecord, hc⟩ := exists_head_record f fs
  obtain ⟨b, bs, hbytes⟩ := List.exists_cons_of_ne_nil (String.utf8EncodeChar_ne_nil (c := c))
  refine ⟨b, bs ++ cs.flatMap String.utf8EncodeChar, by simp [hrecord, hbytes], ?_⟩
  have hmem : b ∈ String.utf8EncodeChar c := by simp [hbytes]
  have hends : c ≠ '\n' ∧ c ≠ '\x0d' := by
    rcases hc with rfl | rfl | ⟨hc, -⟩
    · decide
    · decide
    · simp only [special, Bool.or_eq_false_iff, beq_eq_false_iff_ne] at hc
      exact ⟨hc.1.2, hc.2⟩
  have h10 : b ≠ 10 := Text.ne_of_mem_utf8EncodeChar hmem (by decide) hends.1
  have h13 : b ≠ 13 := Text.ne_of_mem_utf8EncodeChar hmem (by decide) hends.2
  simp [isLineEnd, h10, h13]

/-- The reader goes over a record that has a field. -/
theorem Reads.record {rest : List UInt8} {out : List (List (List UInt8))}
    (h : Reads .between [] [] rest out) (f : String) (fs : List String) :
    Reads .between [] [] ((record (f :: fs)).flatMap String.utf8EncodeChar ++ rest)
      ((f :: fs).map Text.encode :: out) := by
  obtain ⟨b, bs, hbytes, hb⟩ := exists_head_bytes f fs
  have hstart : Reads .start [] [] ((Csv.record (f :: fs)).flatMap String.utf8EncodeChar ++ rest)
      ((f :: fs).map Text.encode :: out) := by
    rw [record_eq]
    by_cases hline : (Csv.line (f :: fs)).isEmpty = true
    · obtain ⟨rfl, rfl⟩ := eq_of_isEmpty_line hline
      rw [if_pos hline]
      have hread : Reads .start [] [] (34 :: 34 :: 10 :: rest) ([[]] :: out) :=
        Reads.drop rfl (Reads.drop rfl (Reads.lineFeed rfl h))
      rw [List.map_singleton, Text.encode_eq]
      exact hread
    · rw [if_neg hline, List.flatMap_append, List.append_assoc]
      exact Reads.line h f fs []
  rw [hbytes] at hstart ⊢
  exact Reads.between_of_start hb hstart

/-- The reader goes over records of one length that is not zero. -/
theorem Reads.records {width : Nat} (hwidth : width ≠ 0) : ∀ {rows : List (List String)},
    (∀ r ∈ rows, r.length = width) →
      Reads .between [] [] ((records width rows).1.flatMap String.utf8EncodeChar)
        (rows.map (·.map Text.encode))
  | [], _ => Reads.nil
  | [] :: _, hrows => absurd (hrows [] List.mem_cons_self).symm hwidth
  | (f :: fs) :: rows, hrows => by
    have hrest := Reads.records hwidth fun r hr => hrows r (List.mem_cons_of_mem _ hr)
    rw [Csv.records, if_pos (hrows _ List.mem_cons_self)]
    simp only [List.flatMap_append]
    exact Reads.record hrest f fs

/-- Nothing stops the writing of records of one length. -/
theorem records_snd {width : Nat} : ∀ {rows : List (List String)},
    (∀ r ∈ rows, r.length = width) → (records width rows).2 = none
  | [], _ => rfl
  | r :: rows, hrows => by
    rw [records, if_pos (hrows r List.mem_cons_self)]
    exact records_snd fun r hr => hrows r (List.mem_cons_of_mem _ hr)

/-! ### Texts -/

theorem texts_map_encode (place : Position) (fields : List String) :
    ∀ i, texts place i (fields.map Text.encode) = .ok fields := by
  induction fields with
  | nil => exact fun _ => rfl
  | cons f fields ih =>
    intro i
    simp only [List.map_cons, texts, Text.decode?_encode]
    rw [ih (i + 1)]
    rfl

/-- A record is read as the texts whose bytes it has. -/
theorem Raw.read_eq {r : Raw} {fields : List String} (h : r.fields = fields.map Text.encode) :
    r.read fields.length = .ok fields := by
  rw [Raw.read, h, if_pos (List.length_map ..), texts_map_encode]

variable {header : List String} {rows : List (List String)}

/-- Writing records of the length of the header meets no fault. -/
theorem write_snd (hrows : ∀ r ∈ rows, r.length = header.length) : (write header rows).2 = none :=
  records_snd hrows

/-- The records of a text that was written are the header and the rows, if the header has a field and does
not begin with a mark of byte order. -/
theorem fields_rawRecords {f : String} {fs : List String} (hmark : f.toList.head? ≠ some '\uFEFF')
    (hrows : ∀ r ∈ rows, r.length = (f :: fs).length) :
    (rawRecords (Text.encode (write (f :: fs) rows).1)).map Raw.fields =
      (f :: fs).map Text.encode :: rows.map (·.map Text.encode) := by
  have hread : Reads .between [] [] (Text.encode (write (f :: fs) rows).1)
      ((f :: fs).map Text.encode :: rows.map (·.map Text.encode)) := by
    have hbytes : Text.encode (write (f :: fs) rows).1 =
        (record (f :: fs)).flatMap String.utf8EncodeChar ++
          (records (f :: fs).length rows).1.flatMap String.utf8EncodeChar := by
      rw [← List.flatMap_append]
      exact Text.encode_ofList _
    rw [hbytes]
    exact Reads.record (Reads.records (Nat.succ_ne_zero _) hrows) f fs
  unfold rawRecords
  split
  · rename_i rest hmarked
    obtain ⟨c, cs, hrecord, hc⟩ := exists_head_record f fs
    have hfirst : String.utf8EncodeChar c ++ (cs ++ (records (f :: fs).length rows).1).flatMap
        String.utf8EncodeChar = String.utf8EncodeChar '\uFEFF' ++ rest := by
      rw [← List.flatMap_cons, ← List.cons_append, ← hrecord]
      exact (Text.encode_ofList _).symm.trans hmarked
    obtain rfl := Text.utf8EncodeChar_append_inj hfirst
    rcases hc with hc | hc | hc
    · exact absurd hc (by decide)
    · exact absurd hc (by decide)
    · exact absurd hc.2 hmark
  · exact hread _ rfl rfl

/-- **What is written is read back**: the header as it was, and records with the fields of the rows. -/
theorem header_write {f : String} {fs : List String} (hmark : f.toList.head? ≠ some '\uFEFF')
    (hrows : ∀ r ∈ rows, r.length = (f :: fs).length) :
    ∃ raws, Csv.header (Text.encode (write (f :: fs) rows).1) = .ok (f :: fs, raws) ∧
      raws.map Raw.fields = rows.map (·.map Text.encode) := by
  have hfields := fields_rawRecords hmark hrows
  obtain ⟨first, raws, hraws, hfirst, hrest⟩ := List.map_eq_cons_iff.1 hfields
  refine ⟨raws, ?_, hrest⟩
  rw [Csv.header, hraws]
  simp only [hfirst, texts_map_encode]
  rfl

/-- A mark of byte order in front of the first name is not read back. -/
example :
    (Csv.header (Text.encode (write ["\uFEFFid"] []).1)).toOption.map Prod.fst = some ["id"] := by
  decide +kernel

end Provenance.Csv
