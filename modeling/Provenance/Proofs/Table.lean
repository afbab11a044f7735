import Mathlib.Data.List.Forall2
import Provenance.Proofs.Csv
import Provenance.Proofs.Json
import Provenance.Table

/-!
# A table is read back with its schema

A cell says what it holds only together with the schema.  In a column of texts it is the text, whatever
that looks like; in any other column it is JSON, and nothing stands for null, which is no mistake because
no value is printed as nothing (`Legible.compact_ne`).  So a value is decoded from its own cell
(`decode?_encode_json`) if it is read back from its JSON text.  For texts that is a theorem
(`Json.ofText?_compact_text`); for the other values it is asked of each cell (`Legible`).

The schema is a file of its own, and it is read back whatever the names of the columns are
(`Schema.readBytes?_toJson`).
-/

namespace Provenance

/-- A JSON text of a text is read back. -/
theorem Json.ofText?_compact_text (s : String) : Json.ofText? (Json.text s).compact = some (.text s) := by
  have hvalue := Json.Source.value_quote
    (2 * (Json.Source.signs (Json.quote s).toList).length + 1) s []
  rw [List.append_nil] at hvalue
  rw [Json.compact, Json.ofText?, Json.Source.ofText?, Json.Source.ofSigns?, ← Json.Source.signs, hvalue]
  rfl

/-- The bytes of a text are read as the text is. -/
theorem Json.Source.ofBytes?_encode (s : String) : ofBytes? (Text.encode s) = ofText? s := by
  rw [ofBytes?, Text.decode?_encode]

/-- A list of words for values is read as the values. -/
theorem Json.Record.listOf_texts {α : Type} {read : Reader α} {word : α → String} {depth : Nat}
    (h : ∀ a, read depth (.text (some (word a))) = some a) (as : List α) :
    listOf read (depth + 1) (.list (Source.texts (as.map word))) = some as := by
  rw [listOf]
  induction as with
  | nil => rfl
  | cons a as ih =>
    rw [List.map_cons, Source.texts, List.map_cons, List.mapM_cons, h]
    rw [Source.texts] at ih
    rw [ih]
    rfl

theorem Dataset.fit_of_length {width : Nat} {row : List Json} (h : row.length = width) :
    fit width row = row := by
  rw [fit, List.take_of_length_le (Nat.le_of_eq h), h, Nat.sub_self, List.replicate_zero, List.append_nil]

namespace Table

namespace Schema

/-- **A schema is read back from its bytes.** -/
theorem readBytes?_toJson (s : Schema) :
    Json.Record.readBytes? reader (Text.encode s.toJson.compact) = some s := by
  have hjson : s.toJson = .object (Json.Source.printed
      [("columns", s.columns), ("encodings", s.encodings.map Encoding.word)]) := rfl
  have hcolumns : Json.Record.listOf Json.Record.string 126 (.list (Json.Source.texts s.columns)) =
      some s.columns := by
    have hword : ∀ t, Json.Record.string 125 (.text (some (id t))) = some t := fun _ => rfl
    have h := Json.Record.listOf_texts hword s.columns
    rwa [List.map_id] at h
  have hencodings : Json.Record.listOf (Json.Record.choice [("text", Encoding.text), ("json", .json)]) 126
      (.list (Json.Source.texts (s.encodings.map Encoding.word))) = some s.encodings :=
    Json.Record.listOf_texts (fun e => by cases e <;> rfl) s.encodings
  have hparts : Json.Record.parts ["columns", "encodings"] false Json.Source.depthLimit
      (.object (Json.Source.fields
        [("columns", s.columns), ("encodings", s.encodings.map Encoding.word)])) =
      some (126, [some (.list (Json.Source.texts s.columns)),
        some (.list (Json.Source.texts (s.encodings.map Encoding.word)))]) := rfl
  rw [Json.Record.readBytes?, Json.Source.ofBytes?_encode, hjson, Json.Source.ofText?_printed,
    Option.bind_some, reader, hparts]
  simp [Json.Record.required, hcolumns, hencodings]

end Schema

/-! ### Cells -/

/-- A value is read back from its JSON text.  This is asked of the values that are no texts: texts are. -/
def Legible (v : Json) : Prop := v.text? = none → Json.ofText? v.compact = some v

theorem Legible.ofText?_compact {v : Json} (h : Legible v) : Json.ofText? v.compact = some v := by
  cases v with
  | text s => exact Json.ofText?_compact_text s
  | null | bool _ | int _ | float _ | list _ | object _ => exact h rfl

/-- A value that is read back is not printed as nothing. -/
theorem Legible.compact_ne {v : Json} (h : Legible v) : v.compact ≠ "" := by
  intro hempty
  have hread := h.ofText?_compact
  have hnone : Json.ofText? "" = none := rfl
  rw [hempty, hnone] at hread
  cases hread

/-- In a column of JSON a value is read back from its cell. -/
theorem decode?_encode_json {v : Json} (h : Legible v) : decode? (encode v .json) .json = some v := by
  have hread := h.ofText?_compact
  have hne := h.compact_ne
  cases v with
  | null => rfl
  | text _ | bool _ | int _ | float _ | list _ | object _ => simp [decode?, encode, hne, hread]

/-- A value is read back from its cell in the column that it stands in. -/
def Kept (v : Json) (e : Encoding) : Prop := decode? (encode v e) e = some v

theorem length_encodings_ofData (d : Dataset) :
    (Schema.ofData d).encodings.length = d.columns.length := by
  simp [Schema.ofData]

/-- **The schema of data keeps every row of it**, if the rows are as wide as the columns. -/
theorem kept_ofData {d : Dataset} (hrect : d.Rectangular) (hcells : ∀ row ∈ d.rows, ∀ v ∈ row, Legible v)
    {row : List Json} (hrow : row ∈ d.rows) : List.Forall₂ Kept row (Schema.ofData d).encodings := by
  rw [List.forall₂_iff_get]
  refine ⟨(hrect row hrow).trans (length_encodings_ofData d).symm, fun i hi hi' => ?_⟩
  have hlegible : Legible (row.get ⟨i, hi⟩) := hcells row hrow _ (List.get_mem row ⟨i, hi⟩)
  have hencoding : (Schema.ofData d).encodings.get ⟨i, hi'⟩ =
      if d.rows.all fun row => (row[i]?.bind Json.text?).isSome then .text else .json := by
    simp [Schema.ofData]
  rw [Kept, hencoding]
  split
  · rename_i hall
    have htext := List.all_eq_true.1 hall row hrow
    rw [List.getElem?_eq_getElem hi, Option.bind_some] at htext
    change decode? (encode row[i] .text) .text = some row[i]
    cases hv : row[i] with
    | text s => rfl
    | null | bool _ | int _ | float _ | list _ | object _ => simp [hv, Json.text?] at htext
  · exact decode?_encode_json hlegible

/-- A row is read back from its cells. -/
theorem row_cells {s : Schema} {values : List Json} (h : List.Forall₂ Kept values s.encodings) :
    row (some s) (cells s values) = .ok values := by
  have hmap : (List.zipWith decode? (cells s values) s.encodings).mapM id = some values := by
    rw [cells]
    generalize s.encodings = es at h
    induction h with
    | nil => rfl
    | cons hv _ ih =>
      rw [Kept] at hv
      simp [hv, ih]
  simp only [row, hmap]

theorem length_cells {s : Schema} {values : List Json} (h : values.length = s.encodings.length) :
    (cells s values).length = s.encodings.length := by
  rw [cells, List.length_zipWith, h, Nat.min_self]

/-! ### Tables -/

variable {d : Dataset}

/-- **The records of a table are read one by one**, with whatever schema. -/
theorem rows_of_fields {s : Schema} {width : Nat} (hwidth : s.encodings.length = width)
    (schema : Option Schema) :
    ∀ {values : List (List Json)} {raws : List Csv.Raw}, (∀ v ∈ values, v.length = width) →
      raws.map Csv.Raw.fields = (values.map (cells s)).map (·.map Text.encode) →
      rows width schema raws = values.mapM fun v => (row schema (cells s v)).map (Dataset.fit width)
  | [], [], _, _ => rfl
  | [], _ :: _, _, hraws => by simp at hraws
  | _ :: _, [], _, hraws => by simp at hraws
  | v :: values, raw :: raws, hlength, hraws => by
    obtain ⟨hraw, hraws⟩ := List.cons.inj hraws
    rw [List.forall_mem_cons] at hlength
    have hcells : (cells s v).length = width := (length_cells (hlength.1.trans hwidth.symm)).trans hwidth
    have hread : raw.read width = .ok (cells s v) := hcells ▸ Csv.Raw.read_eq hraw
    rw [rows, hread, List.mapM_cons, ← rows_of_fields hwidth schema hlength.2 hraws]
    dsimp only
    cases row schema (cells s v) <;> rfl

/-- A list goes through unchanged if each of its members does. -/
theorem mapM_eq_ok_self_iff {α ε : Type} {f : α → Except ε α} {as : List α} :
    as.mapM f = .ok as ↔ ∀ a ∈ as, f a = .ok a := by
  induction as with
  | nil => simp [pure, Except.pure]
  | cons a as ih =>
    rw [List.mapM_cons, List.forall_mem_cons, ← ih]
    cases hf : f a with
    | error fault => simp [bind, Except.bind]
    | ok b =>
      cases hfs : as.mapM f with
      | error fault => simp [bind, Except.bind]
      | ok bs => simp [bind, Except.bind, pure, Except.pure]

theorem eq_map_of_mapM {α : Type} {os : List (Option α)} {as : List α} (h : os.mapM id = some as) :
    os = as.map some := by
  induction os generalizing as with
  | nil =>
    obtain rfl : [] = as := Option.some.inj h
    rfl
  | cons o os ih =>
    rw [List.mapM_cons] at h
    cases o with
    | none => cases h
    | some a =>
      cases hos : os.mapM id with
      | none =>
        rw [hos] at h
        cases h
      | some as' =>
        rw [hos] at h
        obtain rfl : a :: as' = as := Option.some.inj h
        rw [ih hos, List.map_cons]

/-- A record read as a row has as many values as cells, if the schema fits. -/
theorem length_of_row {schema : Option Schema} {record : List String} {values : List Json}
    (hschema : ∀ s ∈ schema, s.encodings.length = record.length) (h : row schema record = .ok values) :
    values.length = record.length := by
  cases schema with
  | none =>
    obtain rfl : record.map guess = values := Except.ok.inj h
    exact List.length_map _
  | some s =>
    simp only [row] at h
    split at h
    · rename_i values' hvalues
      obtain rfl : values' = values := Except.ok.inj h
      have hlength := congrArg List.length (eq_map_of_mapM hvalues)
      rw [List.length_zipWith, List.length_map, hschema s rfl, Nat.min_self] at hlength
      exact hlength.symm
    · cases h

/-- The cells of a table have the length of its header. -/
theorem length_of_mem_cells (hrect : d.Rectangular) :
    ∀ r ∈ d.rows.map (cells (Schema.ofData d)), r.length = d.columns.length := by
  intro r hr
  obtain ⟨row, hrow, rfl⟩ := List.mem_map.1 hr
  rw [length_cells ((hrect row hrow).trans (length_encodings_ofData d).symm), length_encodings_ofData]

/-- Nothing stops the writing of a table whose rows are as wide as its columns. -/
theorem write_snd (hrect : d.Rectangular) : (write d (Schema.ofData d)).2 = none :=
  Csv.write_snd (length_of_mem_cells hrect)

/-- Data that a table keeps: it has columns, the first name does not begin with a mark of byte order, the
rows are as wide as the columns, and every value is read back from its JSON text. -/
structure Tabular (d : Dataset) : Prop where
  columns : d.columns ≠ []
  mark : ∀ c ∈ d.columns.head?, c.toList.head? ≠ some '\uFEFF'
  rectangular : d.Rectangular
  cells : ∀ row ∈ d.rows, ∀ v ∈ row, Legible v

/-- **What is read of a table with any schema**: the rows one by one, as the schema has them if it fits. -/
theorem read_write_eq (h : Tabular d) (schema : Option Schema) :
    read (Text.encode (write d (Schema.ofData d)).1) schema =
      (d.rows.mapM fun v => (row (schema.filter (·.fits d.columns)) (cells (Schema.ofData d) v)).map
        (Dataset.fit d.columns.length)).map (⟨d.columns, ·⟩) := by
  obtain ⟨c, cs, hcolumns⟩ := List.exists_cons_of_ne_nil h.columns
  have hmark : c.toList.head? ≠ some '\uFEFF' := h.mark c (by rw [hcolumns]; rfl)
  have hlength := length_of_mem_cells h.rectangular
  rw [hcolumns] at hlength
  obtain ⟨raws, hheader, hraws⟩ := Csv.header_write hmark hlength
  rw [← hcolumns] at hheader
  rw [read, write, hheader]
  exact congrArg (Except.map _)
    (rows_of_fields (length_encodings_ofData d) _ (fun v hv => h.rectangular v hv) hraws)

/-- A table is read back with a schema exactly if each of its rows is. -/
theorem read_write_eq_ok_iff (h : Tabular d) (schema : Option Schema) :
    read (Text.encode (write d (Schema.ofData d)).1) schema = .ok d ↔
      ∀ v ∈ d.rows, row (schema.filter (·.fits d.columns)) (cells (Schema.ofData d) v) = .ok v := by
  have hok : ∀ out : Except FileFault (List (List Json)),
      out.map (⟨d.columns, ·⟩) = .ok d ↔ out = .ok d.rows := by
    obtain ⟨columns, rows⟩ := d
    rintro (fault | rows') <;> simp [Except.map]
  rw [read_write_eq h, hok, mapM_eq_ok_self_iff]
  refine forall₂_congr fun v hv => ?_
  have hwidth : v.length = d.columns.length := h.rectangular v hv
  have hcells : (cells (Schema.ofData d) v).length = d.columns.length := by
    rw [length_cells (hwidth.trans (length_encodings_ofData d).symm), length_encodings_ofData]
  have hschema : ∀ s ∈ schema.filter (·.fits d.columns),
      s.encodings.length = (cells (Schema.ofData d) v).length := by
    intro s hs
    obtain ⟨-, hfits⟩ := Option.filter_eq_some_iff.1 hs
    rw [Schema.fits, Bool.and_eq_true, beq_iff_eq, beq_iff_eq] at hfits
    rw [hfits.2, hcells]
  cases hrow : row (schema.filter (·.fits d.columns)) (cells (Schema.ofData d) v) with
  | error fault => simp [Except.map]
  | ok values =>
    have hvalues := (length_of_row hschema hrow).trans hcells
    simp [Except.map, Dataset.fit_of_length hvalues]

/-- **A table is read back with its schema.** -/
theorem read_write (h : Tabular d) :
    read (Text.encode (write d (Schema.ofData d)).1) (some (Schema.ofData d)) = .ok d := by
  have hfits : (Schema.ofData d).fits d.columns = true := by
    simp [Schema.fits, Schema.ofData]
  rw [read_write_eq_ok_iff h, Option.filter_some, hfits, if_pos rfl]
  exact fun v hv => row_cells (kept_ofData h.rectangular h.cells hv)

end Table

end Provenance
