import Provenance.Proofs.Folder.Cuts

/-!
# Rows that are not as wide as the columns

A value beyond the last column has no cell, so writing never sees it: data and what is left of it when
such values are cut off are written alike (`Table.write_cut`).  A row that is too short has too few cells
and stops the writing.  And whatever is read has rows as wide as its columns
(`Table.rectangular_of_read`).

So of data with rows of other widths only the kind with a short row is refused.  The rest is written
without complaint and cannot come back: rows that are too long lose what has no column, and where there
are no columns at all, each row becomes the null under a nameless one (`Folder.write_ragged`).
-/

namespace Provenance

/-- What is left when the values beyond the last column are cut off. -/
def Dataset.cut (d : Dataset) : Dataset := { d with rows := d.rows.map (·.take d.columns.length) }

/-- What is made of data without columns: a nameless column, and a null in it for each row. -/
def Dataset.nameless (d : Dataset) : Dataset := ⟨[""], d.rows.map fun _ => [.null]⟩

/-- Data whose rows are wide enough is cut to a rectangle. -/
theorem Dataset.rectangular_cut {d : Dataset} (h : ∀ row ∈ d.rows, d.columns.length ≤ row.length) :
    d.cut.Rectangular := by
  intro row hrow
  obtain ⟨long, hlong, rfl⟩ := List.mem_map.1 hrow
  exact List.length_take_of_le (h long hlong)

/-! ## Tables -/

/-- Writing is only stopped by a record that has not the length of the header. -/
theorem Csv.write_snd_eq_none_iff {header : List String} {rows : List (List String)} :
    (Csv.write header rows).2 = none ↔ ∀ r ∈ rows, r.length = header.length := by
  refine ⟨fun h => ?_, Csv.write_snd⟩
  have hrecords : (Csv.records header.length rows).2 = none := h
  clear h
  induction rows with
  | nil => simp
  | cons r rows ih =>
    rw [Csv.records] at hrecords
    split at hrecords
    · rename_i hlength
      exact List.forall_mem_cons.2 ⟨hlength, ih hrecords⟩
    · exact absurd hrecords (Option.some_ne_none _)

namespace Table

variable {d : Dataset}

/-- The schema does not depend on values beyond the last column. -/
theorem ofData_cut (d : Dataset) : Schema.ofData d.cut = Schema.ofData d := by
  unfold Schema.ofData
  refine congrArg (Schema.mk d.columns) (List.map_congr_left fun i hi => ?_)
  have hget : ∀ row : List Json, (row.take d.columns.length)[i]? = row[i]? := fun row =>
    List.getElem?_take_of_lt (List.mem_range.1 hi)
  simp only [Dataset.cut, List.all_map, Function.comp_def, hget]

/-- **Values beyond the last column are not written.** -/
theorem write_cut (d : Dataset) : write d.cut (Schema.ofData d.cut) = write d (Schema.ofData d) := by
  have hcells : ∀ row : List Json,
      cells (Schema.ofData d) (row.take d.columns.length) = cells (Schema.ofData d) row := by
    intro row
    have hwidth : (Schema.ofData d).encodings.length = d.columns.length := length_encodings_ofData d
    have hlength : (cells (Schema.ofData d) row).length ≤ d.columns.length := by
      rw [cells, List.length_zipWith]
      omega
    calc cells (Schema.ofData d) (row.take d.columns.length)
        = List.zipWith encode (row.take d.columns.length)
            ((Schema.ofData d).encodings.take d.columns.length) := by
          rw [cells, List.take_of_length_le (Nat.le_of_eq hwidth)]
      _ = (cells (Schema.ofData d) row).take d.columns.length := List.take_zipWith.symm
      _ = cells (Schema.ofData d) row := List.take_of_length_le hlength
  rw [ofData_cut, write, write, Dataset.cut, List.map_map]
  exact congrArg (Csv.write d.columns) (List.map_congr_left fun row _ => hcells row)

/-- **A row that is too short stops the writing**, and nothing else does. -/
theorem write_snd_eq_none_iff :
    (write d (Schema.ofData d)).2 = none ↔ ∀ row ∈ d.rows, d.columns.length ≤ row.length := by
  rw [write, Csv.write_snd_eq_none_iff, List.forall_mem_map]
  refine forall₂_congr fun row _ => ?_
  rw [cells, List.length_zipWith, length_encodings_ofData]
  omega

/-- Whatever is read has rows as wide as its columns. -/
theorem rectangular_of_read {bytes : List UInt8} {schema : Option Schema}
    (h : read bytes schema = .ok d) : d.Rectangular := by
  have hrows : ∀ (width : ℕ) (schema : Option Schema) (raws : List Csv.Raw) (out : List (List Json)),
      rows width schema raws = .ok out → ∀ row ∈ out, row.length = width := by
    intro width schema raws
    induction raws with
    | nil =>
      intro out hout
      obtain rfl : [] = out := Except.ok.inj hout
      exact fun row hrow => absurd hrow List.not_mem_nil
    | cons raw raws ih =>
      intro out hout
      rw [rows] at hout
      split at hout
      · exact absurd hout (by simp)
      · rename_i record _
        cases hrow : Table.row schema record with
        | error fault => simp [hrow, bind, Except.bind] at hout
        | ok values =>
          cases hrest : rows width schema raws with
          | error fault => simp [hrow, hrest, bind, Except.bind] at hout
          | ok others =>
            simp only [hrow, hrest, bind, Except.bind, pure, Except.pure] at hout
            obtain rfl := Except.ok.inj hout
            exact List.forall_mem_cons.2 ⟨Dataset.length_fit _ _, ih others hrest⟩
  unfold read at h
  split at h
  · exact absurd h (by simp)
  · rename_i columns records _
    cases hout : rows columns.length (schema.filter (·.fits columns)) records with
    | error fault => simp [hout, Except.map] at h
    | ok out =>
      simp only [hout, Except.map] at h
      obtain rfl := Except.ok.inj h
      exact hrows _ _ _ _ hout

/-! ### No columns -/

/-- A record without fields is written as one with a field that has no characters. -/
theorem records_of_no_columns (rows : List (List Json)) :
    Csv.records 0 (rows.map fun _ => []) = Csv.records 1 (rows.map fun _ => [""]) := by
  induction rows with
  | nil => rfl
  | cons row rows ih =>
    have hrecord : Csv.record [] = Csv.record [""] := by decide
    rw [List.map_cons, List.map_cons, Csv.records, Csv.records, if_pos List.length_nil,
      if_pos List.length_singleton, ih, hrecord]

/-- **Data without columns is written as nulls under a nameless one.** -/
theorem write_nameless (h : d.columns = []) :
    write d.nameless (Schema.ofData d.nameless) = write d (Schema.ofData d) := by
  have hnone : (Schema.ofData d).encodings = [] := by
    rw [← List.length_eq_zero_iff, length_encodings_ofData, h, List.length_nil]
  have hcells : ∀ row : List Json, cells (Schema.ofData d) row = [] := by
    intro row
    rw [cells, hnone, List.zipWith_nil_right]
  have hnull : cells (Schema.ofData d.nameless) [.null] = [""] := by
    obtain ⟨e, he⟩ : ∃ e, (Schema.ofData d.nameless).encodings = [e] :=
      List.length_eq_one_iff.1 (length_encodings_ofData d.nameless)
    rw [cells, he]
    cases e <;> rfl
  have hrecord : Csv.record [""] = Csv.record [] := by decide
  have hrows : d.nameless.rows.map (cells (Schema.ofData d.nameless)) = d.rows.map fun _ => [""] := by
    rw [Dataset.nameless, List.map_map]
    exact List.map_congr_left fun _ _ => hnull
  have hrows' : d.rows.map (cells (Schema.ofData d)) = d.rows.map fun _ => [] :=
    List.map_congr_left fun row _ => hcells row
  rw [write, write, hrows, hrows', h, Csv.write, Csv.write, List.length_nil, records_of_no_columns]
  exact congrArg (fun text => (String.ofList (text ++ _), _)) hrecord

theorem tabular_nameless (d : Dataset) : Tabular d.nameless where
  columns := List.cons_ne_nil _ _
  mark c hc := by
    obtain rfl : "" = c := Option.some.inj hc
    decide
  rectangular row hrow := by
    obtain ⟨_, -, rfl⟩ := List.mem_map.1 hrow
    rfl
  cells row hrow v hv := by
    obtain ⟨_, -, rfl⟩ := List.mem_map.1 hrow
    obtain rfl := List.mem_singleton.1 hv
    exact fun _ => by cbv

/-- The schema of data without columns fits no table, so the nulls are guessed from their cells. -/
theorem read_nameless (h : d.columns = []) :
    read (Text.encode (write d (Schema.ofData d)).1) (some (Schema.ofData d)) = .ok d.nameless := by
  have hfits : (Schema.ofData d).fits d.nameless.columns = false := by
    simp [Schema.fits, Schema.ofData, Dataset.nameless, h]
  rw [← write_nameless h, read_write_eq_ok_iff (tabular_nameless d), Option.filter_some, hfits]
  intro v hv
  obtain ⟨_, -, rfl⟩ := List.mem_map.1 hv
  obtain ⟨e, he⟩ : ∃ e, (Schema.ofData d.nameless).encodings = [e] :=
    List.length_eq_one_iff.1 (length_encodings_ofData d.nameless)
  rw [cells, he]
  cases e <;> rfl

end Table

/-! ## Folders -/

namespace Folder

variable {root file : String} {a : Asset} {d : Dataset} {disk disk' : Disk}

/-- Data and what is left of it when it is cut change the disk alike. -/
theorem changes_cut (path : String) (d : Dataset) : changes path .csv d.cut = changes path .csv d := by
  unfold changes
  simp only
  rw [Table.write_cut, Table.ofData_cut]

theorem write_cut (hformat : a.format = .csv) (d : Dataset) (disk : Disk) :
    (store root).write a d.cut disk = (store root).write a d disk := by
  simp only [store, hformat, writeFile, changes_cut]

/-- Only data whose rows are wide enough is written to the end. -/
theorem wide_of_writeFile (h : writeFile file .csv d disk = (.ok (), disk')) :
    ∀ row ∈ d.rows, d.columns.length ≤ row.length := by
  rw [← Table.write_snd_eq_none_iff]
  by_contra hsome
  obtain ⟨fault, hfault⟩ := Option.ne_none_iff_exists'.1 hsome
  have hstop : (changes file .csv d).2 = some (.csv fault) := by
    unfold changes
    simp only [hfault]
  unfold writeFile at h
  simp only [hstop] at h
  split at h
  · exact absurd h (by simp)
  · exact absurd h (by simp)

/-- What is read of a file after a write: the text that was written, with the schema of the data. -/
theorem readFile_eq_of_writeFile (h : writeFile file .csv d disk = (.ok (), disk')) :
    readFile disk' file .csv = Table.read (Text.encode (Table.write d (Table.Schema.ofData d)).1)
      (some (Table.Schema.ofData d)) := by
  have hrect := Dataset.rectangular_cut (wide_of_writeFile h)
  have hchanges := applyAll_of_writeFile h
  rw [← changes_cut, changes_csv hrect, Table.write_cut, Table.ofData_cut] at hchanges
  obtain ⟨_, -, hchanges⟩ := Disk.applyAll_cons_eq_ok hchanges
  obtain ⟨p, hstands, htable, hschema⟩ := exists_holds hchanges
  rw [hstands.readFile htable hschema, Table.Schema.readBytes?_toJson]

/-- What a folder gives for a table has rows as wide as its columns. -/
theorem rectangular_of_read (hformat : a.format = .csv)
    (h : (store root).read a disk = (.ok d, disk')) : d.Rectangular := by
  cases hpath : path root a with
  | error fault => simp [store, hpath, Except.bind] at h
  | ok file =>
    rw [read_of_path hpath, hformat, Prod.mk.injEq, explain_eq_ok_iff] at h
    have hread := h.1
    unfold readFile at hread
    split at hread
    · exact absurd hread (by simp)
    · exact Table.rectangular_of_read hread

/-- What a folder gives after a write: what is read of the text that was written. -/
theorem exists_read_of_write (hformat : a.format = .csv) (h : (store root).write a d disk = (.ok (), disk')) :
    ∃ file, (store root).read a disk' = (explain a file
      (Table.read (Text.encode (Table.write d (Table.Schema.ofData d)).1)
        (some (Table.Schema.ofData d))), disk') := by
  obtain ⟨file, hpath, hwrite⟩ := writeFile_of_write h
  rw [hformat] at hwrite
  exact ⟨file, by rw [read_of_path hpath, hformat, readFile_eq_of_writeFile hwrite]⟩

theorem read_nameless_of_write (hformat : a.format = .csv) (hcolumns : d.columns = [])
    (h : (store root).write a d disk = (.ok (), disk')) :
    (store root).read a disk' = (.ok d.nameless, disk') := by
  obtain ⟨file, hread⟩ := exists_read_of_write hformat h
  rw [hread, Table.read_nameless hcolumns]
  rfl

theorem read_cut_of_write (hformat : a.format = .csv) (hcut : Table.Tabular d.cut)
    (h : (store root).write a d disk = (.ok (), disk')) :
    (store root).read a disk' = (.ok d.cut, disk') := by
  obtain ⟨file, hread⟩ := exists_read_of_write hformat h
  have hback := Table.read_write hcut
  rw [Table.write_cut, Table.ofData_cut] at hback
  rw [hread, hback]
  rfl

/-- **What becomes of data without columns, or with rows that are not as wide as the columns.**  A row that
is too short makes every write fail.  All other data is written like what is left of it when it is cut;
after such a write the folder never gives the data back.  It gives what is left of it, and without columns
a null for each row. -/
theorem write_ragged (hformat : a.format = .csv) (hragged : d.columns = [] ∨ ¬ d.Rectangular)
    {result : Except Fault Unit} (h : (store root).write a d disk = (result, disk')) :
    ((∃ row ∈ d.rows, row.length < d.columns.length) → ∃ fault, result = .error fault) ∧
    (store root).write a d.cut disk = (result, disk') ∧
    (result = .ok () → (store root).read a disk' ≠ (.ok d, disk') ∧
      (d.columns = [] → (store root).read a disk' = (.ok d.nameless, disk')) ∧
      (Table.Tabular d.cut → (store root).read a disk' = (.ok d.cut, disk'))) := by
  refine ⟨?_, (write_cut hformat d disk).trans h, ?_⟩
  · rintro ⟨row, hrow, hshort⟩
    cases result with
    | error fault => exact ⟨fault, rfl⟩
    | ok _ =>
      obtain ⟨file, -, hwrite⟩ := writeFile_of_write h
      rw [hformat] at hwrite
      exact absurd (wide_of_writeFile hwrite row hrow) (Nat.not_le_of_lt hshort)
  · rintro rfl
    refine ⟨fun hback => ?_, fun hcolumns => read_nameless_of_write hformat hcolumns h,
      fun hcut => read_cut_of_write hformat hcut h⟩
    rcases hragged with hcolumns | hrect
    · have heq : d = d.nameless := by
        simpa using hback.symm.trans (read_nameless_of_write hformat hcolumns h)
      rw [heq] at hcolumns
      exact List.cons_ne_nil _ _ hcolumns
    · exact hrect (rectangular_of_read hformat hback)

/-- A second row that is too short stops the writing of both. -/
theorem write_ragged_short :
    let a : Asset := ⟨⟨"orders", "s3://lake/raw"⟩, none, none, none, 0⟩
    let d : Dataset := ⟨["id", "n"], [[.int 1, .int 2], [.int 3]]⟩
    (∃ row ∈ d.rows, row.length < d.columns.length) ∧
      ∃ fault, ((store "data").write a d (Disk.withDirectory "data")).1 = .error fault := by
  intro a d
  have hshort : ∃ row ∈ d.rows, row.length < d.columns.length := ⟨[.int 3], by simp [d], by decide⟩
  have hragged : d.columns = [] ∨ ¬ d.Rectangular := by
    rw [Dataset.Rectangular]
    decide
  obtain ⟨hstops, -⟩ := write_ragged (a := a) (d := d) rfl hragged
    (Prod.eta ((store "data").write a d (Disk.withDirectory "data"))).symm
  exact ⟨hshort, hstops hshort⟩

/-- **Values are lost, and columns and values are made up, without an error**: of a row that is too long its
end, and a row without columns comes back as a null under a nameless one. -/
theorem read_of_write_ragged :
    let a : Asset := ⟨⟨"orders", "s3://lake/raw"⟩, none, none, none, 0⟩
    let long : Dataset := ⟨["n"], [[.int 1, .int 2]]⟩
    let bare : Dataset := ⟨[], [[.int 1]]⟩
    let disk := Disk.withDirectory "data"
    let disk₁ := ((store "data").write a long disk).2
    let disk₂ := ((store "data").write a bare disk).2
    (¬ long.Rectangular ∧ (store "data").write a long disk = (.ok (), disk₁) ∧
      (store "data").read a disk₁ = (.ok ⟨["n"], [[.int 1]]⟩, disk₁) ∧
      (store "data").read a disk₁ ≠ (.ok long, disk₁)) ∧
    bare.columns = [] ∧ (store "data").write a bare disk = (.ok (), disk₂) ∧
      (store "data").read a disk₂ = (.ok ⟨[""], [[.null]]⟩, disk₂) ∧
      (store "data").read a disk₂ ≠ (.ok bare, disk₂) := by
  intro a long bare disk disk₁ disk₂
  have hlong : (store "data").write a long disk = (.ok (), disk₁) := Prod.ext (by decide +kernel) rfl
  have hbare : (store "data").write a bare disk = (.ok (), disk₂) := Prod.ext (by decide +kernel) rfl
  have hcut : Table.Tabular long.cut := tabular_singleton _ fun _ => by cbv
  have hread₁ : (store "data").read a disk₁ = (.ok ⟨["n"], [[.int 1]]⟩, disk₁) :=
    read_cut_of_write rfl hcut hlong
  have hread₂ : (store "data").read a disk₂ = (.ok ⟨[""], [[.null]]⟩, disk₂) :=
    read_nameless_of_write rfl rfl hbare
  refine ⟨⟨by rw [Dataset.Rectangular]; decide, hlong, hread₁, ?_⟩, rfl, hbare, hread₂, ?_⟩
  · rw [hread₁]
    simp [long]
  · rw [hread₂]
    simp [bare]

end Folder

end Provenance
