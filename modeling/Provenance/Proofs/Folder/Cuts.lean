import Provenance.Proofs.Disk.Directories
import Provenance.Proofs.Folder

/-!
# A write that is cut off

A table is written by five changes of the disk: the directories are made, the table and its schema are
written beside their places, and then the schema is moved into place and the table after it.  Whoever reads
after some of them finds the old files or the new ones, because a move replaces a file at once.  But the
files are two and are moved one after the other.  Up to the fourth change the old table is read with the old
schema and after the fifth the new table with the new schema; in between, the old table is read with the new
schema (`read_of_cut`).

That is the old table if the new schema reads each of its rows as the old one does (`Table.ReadAlike`), as
it does if the schemas are the same.  Otherwise it can be a table that nobody wrote (`read_of_cut_mixed`).
-/

namespace Provenance

/-- Whether the schema of a table reads each row of another table as that table has it. -/
def Table.ReadAlike (old new : Dataset) : Prop :=
  ∀ v ∈ old.rows,
    Table.row ((some (Table.Schema.ofData new)).filter (·.fits old.columns))
      (Table.cells (Table.Schema.ofData old) v) = .ok v

theorem Table.readAlike_of_schema_eq {old new : Dataset} (h : Table.Tabular old)
    (hschema : Table.Schema.ofData new = Table.Schema.ofData old) : Table.ReadAlike old new := by
  rw [ReadAlike, hschema]
  exact (Table.read_write_eq_ok_iff h _).1 (Table.read_write h)

namespace Folder

variable {root file : String} {a : Asset} {old new : Dataset} {disk disk' : Disk}

/-- A change that changes nothing may be left out in front. -/
theorem applyAll_take_cons {c : Disk.Change} (hc : c.apply disk = (.ok (), disk)) (cs : List Disk.Change)
    (k : ℕ) : Disk.applyAll ((c :: cs).take k) disk = Disk.applyAll (cs.take (k - 1)) disk := by
  cases k with
  | zero => rfl
  | succ k =>
    rw [List.take_succ_cons, Disk.applyAll, hc]
    rfl

theorem explain_eq_ok_iff {α : Type} {answer : Except FileFault α} {x : α} :
    explain a file answer = .ok x ↔ answer = .ok x := by
  cases answer <;> simp [explain]

/-- **What a write that succeeded leaves behind**: both files, and for a second write the places to put them
and no directory to make. -/
theorem exists_stands_of_writeFile (hold : old.Rectangular)
    (h : writeFile file .csv old disk = (.ok (), disk')) :
    ∃ p, Stands disk' file p ∧
      disk'.Holds p (Text.encode (Table.write old (Table.Schema.ofData old)).1) ∧
      disk'.Holds (p.beside ".schema") (Text.encode (Table.Schema.ofData old).toJson.compact) ∧
      (Disk.Change.makeDirectories (Disk.Path.parent file)).apply disk' = (.ok (), disk') := by
  have hchanges := applyAll_of_writeFile h
  rw [changes_csv hold] at hchanges
  obtain ⟨made, hmake, hchanges⟩ := Disk.applyAll_cons_eq_ok hchanges
  obtain ⟨p, hstands, htable, hschema⟩ := exists_holds hchanges
  refine ⟨p, hstands, htable, hschema, ?_⟩
  obtain ⟨leading, n, hcomponents⟩ := hstands.file.exists_components
  have hcomponents := hcomponents "" (by decide)
  have hlocate := hstands.locate "" (by decide)
  rw [String.append_empty] at hcomponents hlocate
  rw [Disk.apply_makeDirectories] at hmake ⊢
  exact Disk.makeDirectories_parent (Disk.Path.fileName?_of_components hcomponents) hlocate
    (Disk.refusal?_of_makeDirectories hmake)

/-- After any number of changes of a second write, both files can be read, and each is the old one or the new
one. -/
theorem exists_cut (hformat : a.format = .csv) (hfile : path root a = .ok file)
    (hold : Table.Tabular old) (hnew : Table.Tabular new)
    (h : (store root).write a old disk = (.ok (), disk')) (k : ℕ) :
    ∃ cut, Disk.applyAll ((changes file .csv new).1.take k) disk' = (.ok (), cut) ∧
      (k < 4 → (store root).read a cut = (.ok old, cut)) ∧
      (k = 4 → (store root).read a cut =
        (explain a file (Table.read (Text.encode (Table.write old (Table.Schema.ofData old)).1)
          (some (Table.Schema.ofData new))), cut)) ∧
      (4 < k → (store root).read a cut = (.ok new, cut)) := by
  obtain ⟨file', hfile', hwrite⟩ := writeFile_of_write h
  obtain rfl : file = file' := Except.ok.inj (hfile.symm.trans hfile')
  rw [hformat] at hwrite
  obtain ⟨p, hstands, htable, hschema, hmake⟩ := exists_stands_of_writeFile hold.rectangular hwrite
  obtain ⟨cut, hcut, hstands', htable₁, htable₂, hschema₁, hschema₂⟩ :=
    hstands.replacing_take (Text.encode (Table.write new (Table.Schema.ofData new)).1)
      (Text.encode (Table.Schema.ofData new).toJson.compact) (k - 1)
  have hread : ∀ {table : List UInt8} {schema : Table.Schema}, cut.Holds p table →
      cut.Holds (p.beside ".schema") (Text.encode schema.toJson.compact) →
      (store root).read a cut = (explain a file (Table.read table (some schema)), cut) := by
    intro table schema ht hs
    rw [read_of_path hfile, hformat, hstands'.readFile ht hs, Table.Schema.readBytes?_toJson]
  refine ⟨cut, ?_, fun hk => ?_, fun hk => ?_, fun hk => ?_⟩
  · rw [changes_csv hnew.rectangular, applyAll_take_cons hmake]
    exact hcut
  · rw [hread (htable.congr (htable₁ (by omega))) (hschema.congr (hschema₁ (by omega))),
      Table.read_write hold]
    rfl
  · exact hread (htable.congr (htable₁ (by omega))) (hschema₂ (by omega))
  · rw [hread (htable₂ (by omega)) (hschema₂ (by omega)), Table.read_write hnew]
    rfl

/-- **What is read after a write was cut off.**  It is the old table if the cut came before the schema was
moved, and the new one if it came after the table was moved.  Between the two it is what the new schema makes
of the old table, and that is the old table only if the new schema reads it alike. -/
theorem read_of_cut (hformat : a.format = .csv) (hfile : path root a = .ok file)
    (hold : Table.Tabular old) (hnew : Table.Tabular new)
    (h : (store root).write a old disk = (.ok (), disk')) (k : ℕ) :
    ∃ cut, Disk.applyAll ((changes file .csv new).1.take k) disk' = (.ok (), cut) ∧
      (k < 4 → (store root).read a cut = (.ok old, cut)) ∧
      (k = 4 → (store root).read a cut =
          (explain a file (Table.read (Text.encode (Table.write old (Table.Schema.ofData old)).1)
            (some (Table.Schema.ofData new))), cut) ∧
        ((store root).read a cut = (.ok old, cut) ↔ Table.ReadAlike old new)) ∧
      (4 < k → (store root).read a cut = (.ok new, cut)) := by
  obtain ⟨cut, hcut, hbefore, hbetween, hafter⟩ := exists_cut hformat hfile hold hnew h k
  refine ⟨cut, hcut, hbefore, fun hk => ⟨hbetween hk, ?_⟩, hafter⟩
  rw [hbetween hk, Table.ReadAlike, ← Table.read_write_eq_ok_iff hold, Prod.mk.injEq, explain_eq_ok_iff]
  simp

theorem tabular_singleton (v : Json) (hv : Table.Legible v) : Table.Tabular ⟨["n"], [[v]]⟩ where
  columns := by simp
  mark c hc := by
    obtain rfl : "n" = c := Option.some.inj hc
    decide
  rectangular row hrow := by
    obtain rfl := List.mem_singleton.1 hrow
    rfl
  cells row hrow w hw := by
    obtain rfl := List.mem_singleton.1 hrow
    obtain rfl := List.mem_singleton.1 hw
    exact hv

/-- A number in place of another: the schemas are the same, and no cut shows. -/
theorem read_of_cut_numbers :
    let a : Asset := ⟨⟨"orders", "s3://lake/raw"⟩, none, none, none, 0⟩
    let old : Dataset := ⟨["n"], [[.int 1]]⟩
    let new : Dataset := ⟨["n"], [[.int 2]]⟩
    let disk := ((store "data").write a old (Disk.withDirectory "data")).2
    ∃ cut, Disk.applyAll ((changes "data/s3/lake/raw.csv" .csv new).1.take 4) disk = (.ok (), cut) ∧
      (store "data").read a cut = (.ok old, cut) := by
  intro a old new disk
  have hold : Table.Tabular old := tabular_singleton _ fun _ => by cbv
  have hnew : Table.Tabular new := tabular_singleton _ fun _ => by cbv
  have hfile : path "data" a = .ok "data/s3/lake/raw.csv" := by decide +kernel
  have hwrite : (store "data").write a old (Disk.withDirectory "data") = (.ok (), disk) :=
    Prod.ext (by decide +kernel) rfl
  obtain ⟨cut, hcut, -, hbetween, -⟩ := read_of_cut rfl hfile hold hnew hwrite 4
  exact ⟨cut, hcut, (hbetween rfl).2.2 (Table.readAlike_of_schema_eq hold rfl)⟩

/-- **Between the moves there can be a table that nobody wrote.** -/
theorem read_of_cut_mixed :
    let a : Asset := ⟨⟨"orders", "s3://lake/raw"⟩, none, none, none, 0⟩
    let old : Dataset := ⟨["n"], [[.int 1]]⟩
    let new : Dataset := ⟨["n"], [[.text "one"]]⟩
    let mixed : Dataset := ⟨["n"], [[.text "1"]]⟩
    let disk := ((store "data").write a old (Disk.withDirectory "data")).2
    Table.Tabular old ∧ Table.Tabular new ∧
      (store "data").write a old (Disk.withDirectory "data") = (.ok (), disk) ∧
      ∃ cut, Disk.applyAll ((changes "data/s3/lake/raw.csv" .csv new).1.take 4) disk = (.ok (), cut) ∧
        (store "data").read a cut = (.ok mixed, cut) ∧ mixed ≠ old ∧ mixed ≠ new := by
  intro a old new mixed disk
  have hold : Table.Tabular old := tabular_singleton _ fun _ => by cbv
  have hnew : Table.Tabular new := tabular_singleton _ fun h => absurd h (Option.some_ne_none _)
  have hfile : path "data" a = .ok "data/s3/lake/raw.csv" := by decide +kernel
  have hwrite : (store "data").write a old (Disk.withDirectory "data") = (.ok (), disk) :=
    Prod.ext (by decide +kernel) rfl
  obtain ⟨cut, hcut, -, hbetween, -⟩ := exists_cut rfl hfile hold hnew hwrite 4
  refine ⟨hold, hnew, hwrite, cut, hcut, ?_, by simp [mixed, old], by simp [mixed, new]⟩
  rw [hbetween rfl, Table.read_write_eq hold]
  rfl

end Folder

end Provenance
