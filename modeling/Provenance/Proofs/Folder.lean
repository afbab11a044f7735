import Provenance.Proofs.Disk.Changes
import Provenance.Proofs.Table
import Provenance.Store.Folder

/-!
# A folder gives back the tables that are written to it

A table in a folder is two files, the cells and the schema that says what they hold, and each is written
beside its place and moved over it.  The four paths that a write names are one path with four texts behind
it, so if every change succeeds they lead to four places (`Stands`), and no change spoils what another has
put there (`Stands.replacing_take`).  Directories are made only at the beginning, and all the paths lead
afterwards where they led before.

Nothing is asked of the disk: whatever stood at the four places is gone, or it was in the way.  And nothing
is asked of the path but that the write succeeds, because a path that ends in a slash or in dots takes no
file.
-/

namespace Provenance

/-- There is a file with these bytes at a place. -/
def Disk.Holds (d : Disk) (p : Place) (bytes : List UInt8) : Prop :=
  ∃ n, d.find? p = some (.file (.bytes bytes) n)

theorem Disk.Holds.congr {d d' : Disk} {p : Place} {bytes : List UInt8} (h : d.Holds p bytes)
    (hfind : d'.find? p = d.find? p) : d'.Holds p bytes := by
  obtain ⟨n, hn⟩ := h
  exact ⟨n, hfind.trans hn⟩

namespace Folder

open Disk (Place Change SameDirectories)

section Files

/-! ### A file and those beside it -/

/-- What the paths that a write names have behind the path of the file: nothing, or one of these. -/
def companions : List String := ["", ".partial", ".schema", ".schema.partial"]

variable {path t : String} {p : Place} {d d' : Disk}

theorem notMem_of_mem_companions (ht : t ∈ companions) : '/' ∉ t.toList := by
  revert t
  decide

theorem isFile_append (h : Disk.IsFile path) (ht : t ∈ companions) : Disk.IsFile (path ++ t) := by
  have hlast : t = "" ∨ ∃ c, t.toList.getLast? = some c ∧ c ≠ '.' := by
    simp only [companions, List.mem_cons, List.not_mem_nil, or_false] at ht
    rcases ht with rfl | rfl | rfl | rfl
    · exact .inl rfl
    · exact .inr ⟨'l', by decide, by decide⟩
    · exact .inr ⟨'a', by decide, by decide⟩
    · exact .inr ⟨'l', by decide, by decide⟩
  rcases hlast with rfl | ⟨c, hlast, hdot⟩
  · rwa [String.append_empty]
  · exact h.append (notMem_of_mem_companions ht) hlast hdot

theorem staging_schemaPath (path : String) : staging (schemaPath path) = path ++ ".schema.partial" := by
  rw [staging, schemaPath, String.append_assoc]
  rfl

/-- The paths of a file and of its companions lead to a place and beside it, and no directory is there. -/
structure Stands (d : Disk) (path : String) (p : Place) : Prop where
  file : Disk.IsFile path
  locate : ∀ t ∈ companions, d.locate (path ++ t) = .ok (p.beside t)
  free : ∀ t ∈ companions, d.find? (p.beside t) ≠ some .directory

namespace Stands

theorem congr (hdirs : SameDirectories d d') (h : Stands d path p) : Stands d' path p where
  file := h.file
  locate t ht := hdirs.locate_eq_ok (h.locate t ht)
  free t ht hfind := h.free t ht ((hdirs _).2 hfind)

/-- Any of the files can be written. -/
theorem writeFile (h : Stands d path p) (ht : t ∈ companions) (bytes : List UInt8) :
    ∃ d', (Change.writeFile (path ++ t) bytes).apply d = (.ok (), d') ∧ Stands d' path p ∧
      d'.Holds (p.beside t) bytes ∧ ∀ q, q ≠ p.beside t → d'.find? q = d.find? q := by
  obtain ⟨d', hwrite⟩ := Disk.exists_writeFile (h.locate t ht) (h.free t ht)
    (isFile_append h.file ht).notDirectory bytes
  obtain ⟨hdirs, q, n, hq, hfind, hother⟩ := Disk.writeFile_eq_ok hwrite
  obtain rfl : p.beside t = q := Except.ok.inj ((h.locate t ht).symm.trans hq)
  exact ⟨d', Disk.apply_writeFile_eq_ok_iff.2 hwrite, h.congr hdirs, ⟨n, hfind⟩, hother⟩

/-- Any of the files that is there can be moved onto any other. -/
theorem rename {s : String} {bytes : List UInt8} (h : Stands d path p) (hs : s ∈ companions)
    (ht : t ∈ companions) (hholds : d.Holds (p.beside s) bytes) :
    ∃ d', (Change.rename (path ++ s) (path ++ t)).apply d = (.ok (), d') ∧ Stands d' path p ∧
      d'.Holds (p.beside t) bytes ∧
      ∀ q, q ≠ p.beside s → q ≠ p.beside t → d'.find? q = d.find? q := by
  obtain ⟨n, hfound⟩ := hholds
  obtain ⟨d', hrename⟩ := Disk.exists_rename (isFile_append h.file hs) (isFile_append h.file ht)
    (h.locate s hs) (h.locate t ht) hfound (h.free t ht)
  obtain ⟨-, hdirs, old, new, content, m, hold, hnew, hfound', hfind, hother⟩ :=
    Disk.rename_eq_ok hrename
  obtain rfl : p.beside s = old := Except.ok.inj ((h.locate s hs).symm.trans hold)
  obtain rfl : p.beside t = new := Except.ok.inj ((h.locate t ht).symm.trans hnew)
  rw [hfound] at hfound'
  rw [← Option.some.inj hfound'] at hfind
  exact ⟨d', Disk.apply_rename_eq_ok_iff.2 hrename, h.congr hdirs, ⟨n, hfind⟩, hother⟩

/-- Any of the files is read as what it holds. -/
theorem read {bytes : List UInt8} (h : Stands d path p) (ht : t ∈ companions)
    (hholds : d.Holds (p.beside t) bytes) : d.read (path ++ t) = .ok bytes := by
  obtain ⟨n, hfind⟩ := hholds
  exact Disk.read_of_find? (isFile_append h.file ht).notDirectory (h.locate t ht) hfind

end Stands

/-! ### Two files put in place -/

/-- The changes that put a table and its schema in place. -/
def replacing (path : String) (table schema : List UInt8) : List Change :=
  [.writeFile (staging path) table, .writeFile (staging (schemaPath path)) schema,
    .rename (staging (schemaPath path)) (schemaPath path), .rename (staging path) path]

variable {table schema : List UInt8}

/-- The changes can only be made where the files can stand. -/
theorem exists_stands (h : Disk.applyAll (replacing path table schema) d = (.ok (), d')) :
    ∃ p, Stands d path p := by
  obtain ⟨-, hopen, -⟩ := Disk.applyAll_eq_ok (by simp [replacing, Change.files]) h
  have hfile : Disk.IsFile path := by
    obtain ⟨_, -, h⟩ := Disk.applyAll_cons_eq_ok h
    obtain ⟨_, -, h⟩ := Disk.applyAll_cons_eq_ok h
    obtain ⟨_, -, h⟩ := Disk.applyAll_cons_eq_ok h
    obtain ⟨_, hmove, -⟩ := Disk.applyAll_cons_eq_ok h
    exact (Disk.rename_eq_ok (Disk.apply_rename_eq_ok_iff.1 hmove)).1
  have hopen : ∀ t ∈ companions, d.Open (path ++ t) := by
    simp only [replacing, Change.files, staging_schemaPath, List.forall_mem_cons, List.not_mem_nil,
      false_implies, implies_true, and_true] at hopen
    simp only [companions, List.forall_mem_cons, List.not_mem_nil, false_implies, implies_true,
      and_true, String.append_empty]
    exact ⟨hopen.2.2.2.2, hopen.1, hopen.2.2.1.2, hopen.2.1⟩
  obtain ⟨q, hq, -⟩ := hopen "" (by decide)
  obtain ⟨p, hp⟩ := hfile.exists_place (by decide) hq
  refine ⟨p, hfile, fun t ht => ?_, fun t ht => ?_⟩ <;> obtain ⟨q', hq', hfree⟩ := hopen t ht
  · rw [hq', hp t (notMem_of_mem_companions ht) q' hq']
  · rwa [← hp t (notMem_of_mem_companions ht) q' hq']

/-- **What some of the changes leave behind.**  The schema is in place after the third of them, the table
after the fourth. -/
theorem Stands.replacing_take (h : Stands d path p) (table schema : List UInt8) (k : ℕ) :
    ∃ d', Disk.applyAll ((replacing path table schema).take k) d = (.ok (), d') ∧ Stands d' path p ∧
      (k < 4 → d'.find? p = d.find? p) ∧ (4 ≤ k → d'.Holds p table) ∧
      (k < 3 → d'.find? (p.beside ".schema") = d.find? (p.beside ".schema")) ∧
      (3 ≤ k → d'.Holds (p.beside ".schema") schema) := by
  obtain ⟨d₁, hwrite, h₁, htable₁, hother₁⟩ := h.writeFile (t := ".partial") (by decide) table
  obtain ⟨d₂, hwriteSchema, h₂, hschema₂, hother₂⟩ :=
    h₁.writeFile (t := ".schema.partial") (by decide) schema
  obtain ⟨d₃, hmoveSchema, h₃, hschema₃, hother₃⟩ :=
    h₂.rename (t := ".schema") (by decide) (by decide) hschema₂
  have htable₃ : d₃.Holds (p.beside ".partial") table :=
    (htable₁.congr (hother₂ _ (p.beside_ne (by decide)))).congr
      (hother₃ _ (p.beside_ne (by decide)) (p.beside_ne (by decide)))
  obtain ⟨d₄, hmove, h₄, htable₄, hother₄⟩ := h₃.rename (t := "") (by decide) (by decide) htable₃
  rw [p.beside_empty] at htable₄ hother₄
  rw [String.append_empty] at hmove
  have hschema₄ : d₄.Holds (p.beside ".schema") schema :=
    hschema₃.congr (hother₄ _ (p.beside_ne (by decide)) (p.beside_ne_self (by decide)))
  have hp₁ : d₁.find? p = d.find? p := hother₁ p (p.beside_ne_self (by decide)).symm
  have hp₂ : d₂.find? p = d.find? p := (hother₂ p (p.beside_ne_self (by decide)).symm).trans hp₁
  have hp₃ : d₃.find? p = d.find? p :=
    (hother₃ p (p.beside_ne_self (by decide)).symm (p.beside_ne_self (by decide)).symm).trans hp₂
  have hs₁ : d₁.find? (p.beside ".schema") = d.find? (p.beside ".schema") :=
    hother₁ _ (p.beside_ne (by decide))
  have hs₂ : d₂.find? (p.beside ".schema") = d.find? (p.beside ".schema") :=
    (hother₂ _ (p.beside_ne (by decide))).trans hs₁
  rw [replacing, staging_schemaPath, staging, schemaPath]
  match k with
  | 0 => exact ⟨d, rfl, h, by simp, by simp, by simp, by simp⟩
  | 1 => exact ⟨d₁, by simp [Disk.applyAll, hwrite], h₁, by simp [hp₁], by simp, by simp [hs₁], by simp⟩
  | 2 =>
    exact ⟨d₂, by simp [Disk.applyAll, hwrite, hwriteSchema], h₂, by simp [hp₂], by simp, by simp [hs₂],
      by simp⟩
  | 3 =>
    exact ⟨d₃, by simp [Disk.applyAll, hwrite, hwriteSchema, hmoveSchema], h₃, by simp [hp₃], by simp,
      by simp, fun _ => hschema₃⟩
  | k + 4 =>
    exact ⟨d₄, by simp [Disk.applyAll, hwrite, hwriteSchema, hmoveSchema, hmove], h₄, by omega,
      fun _ => htable₄, by omega, fun _ => hschema₄⟩

/-- **What all the changes leave behind.** -/
theorem exists_holds (h : Disk.applyAll (replacing path table schema) d = (.ok (), d')) :
    ∃ p, Stands d' path p ∧ d'.Holds p table ∧ d'.Holds (p.beside ".schema") schema := by
  obtain ⟨p, hp⟩ := exists_stands h
  obtain ⟨d'', hchanges, hstands, -, htable, -, hschema⟩ := hp.replacing_take table schema 4
  obtain rfl : d' = d'' := congrArg Prod.snd (h.symm.trans hchanges)
  exact ⟨p, hstands, htable (Nat.le_refl 4), hschema (by decide)⟩

/-- What is read of a table in place. -/
theorem Stands.readFile (h : Stands d path p) (htable : d.Holds p table)
    (hschema : d.Holds (p.beside ".schema") schema) :
    readFile d path .csv = Table.read table (Json.Record.readBytes? Table.Schema.reader schema) := by
  have hread := h.read (t := "") (by decide) (by rwa [p.beside_empty])
  rw [String.append_empty] at hread
  have hread' : d.read (schemaPath path) = .ok schema := h.read (by decide) hschema
  rw [Folder.readFile, hread, schema?, hread']

end Files

/-! ### A table -/

/-- A table whose rows are as wide as its columns is written without a fault of its own. -/
theorem changes_csv {d : Dataset} (h : d.Rectangular) (path : String) :
    changes path .csv d =
      (.makeDirectories (Disk.Path.parent path) ::
        replacing path (Text.encode (Table.write d (Table.Schema.ofData d)).1)
          (Text.encode (Table.Schema.ofData d).toJson.compact), none) := by
  have hfault := Table.write_snd h
  unfold changes
  simp only
  generalize Table.write d (Table.Schema.ofData d) = written at hfault
  obtain ⟨text, fault⟩ := written
  obtain rfl : fault = none := hfault
  rfl

variable {root file : String} {a : Asset} {d : Dataset} {disk disk' : Disk}

/-- A write that succeeds has made all its changes. -/
theorem applyAll_of_writeFile {format : Format} (h : writeFile file format d disk = (.ok (), disk')) :
    Disk.applyAll (changes file format d).1 disk = (.ok (), disk') := by
  unfold writeFile at h
  simp only at h
  split at h
  · cases h
  · rename_i hchanges
    split at h
    · cases h
    · rw [hchanges]
      exact congrArg (Prod.mk _) (congrArg Prod.snd h)

/-- The file of an asset holds the table that was written to it. -/
theorem readFile_of_writeFile (hd : Table.Tabular d) (h : writeFile file .csv d disk = (.ok (), disk')) :
    readFile disk' file .csv = .ok d := by
  have hchanges := applyAll_of_writeFile h
  rw [changes_csv hd.rectangular] at hchanges
  obtain ⟨made, -, hchanges⟩ := Disk.applyAll_cons_eq_ok hchanges
  obtain ⟨p, hstands, htable, hschema⟩ := exists_holds hchanges
  rw [hstands.readFile htable hschema, Table.Schema.readBytes?_toJson]
  exact Table.read_write hd

theorem read_of_path (hpath : path root a = .ok file) (disk : Disk) :
    (store root).read a disk = (explain a file (readFile disk file a.format), disk) := by
  simp only [store, hpath]
  rfl

/-- A write that succeeds has found the file and written it. -/
theorem writeFile_of_write (h : (store root).write a d disk = (.ok (), disk')) :
    ∃ file, path root a = .ok file ∧ writeFile file a.format d disk = (.ok (), disk') := by
  simp only [store] at h
  cases hpath : path root a with
  | error fault => simp [hpath] at h
  | ok file =>
    simp only [hpath] at h
    cases hwrite : writeFile file a.format d disk with
    | mk result disk₁ =>
      rw [hwrite] at h
      obtain ⟨hresult, rfl⟩ := Prod.mk.inj h
      cases result with
      | error cause => cases hresult
      | ok _ => exact ⟨file, rfl, hwrite⟩

/-- **A folder gives back the table that was written to it**, whatever the disk held before. -/
theorem read_of_write (hformat : a.format = .csv) (hd : Table.Tabular d)
    (h : (store root).write a d disk = (.ok (), disk')) :
    (store root).read a disk' = (.ok d, disk') := by
  obtain ⟨file, hpath, hwrite⟩ := writeFile_of_write h
  rw [hformat] at hwrite
  rw [read_of_path hpath, hformat, readFile_of_writeFile hd hwrite]
  rfl

/-- A column of numbers, texts and nulls, beside a column of texts that look like something else, in place
of an older table. -/
theorem read_of_write_mixed :
    let a : Asset := ⟨⟨"orders", "s3://lake/raw"⟩, none, none, none, 0⟩
    let d : Dataset := ⟨["id", "note, \"n\""],
      [[.int 1, .text ""], [.null, .text "true"], [.text "", .text "1,\n"],
        [.list [.bool true, .null], .text "null"]]⟩
    let disk := ((store "data").write a ⟨["id"], [[.text "old"]]⟩ (Disk.withDirectory "data")).2
    let disk' := ((store "data").write a d disk).2
    (store "data").write a d disk = (.ok (), disk') ∧
      (store "data").read a disk' = (.ok d, disk') := by
  intro a d disk disk'
  have hwrite : (store "data").write a d disk = (.ok (), disk') := Prod.ext (by decide +kernel) rfl
  have hcells : ∀ row ∈ d.rows, ∀ v ∈ row, Table.Legible v := by
    simp only [d, List.forall_mem_cons, List.not_mem_nil, false_implies, implies_true, and_true,
      Table.Legible]
    exact ⟨⟨fun _ => by cbv, nofun⟩, ⟨fun _ => by cbv, nofun⟩, ⟨nofun, nofun⟩, fun _ => by cbv, nofun⟩
  have hrect : d.Rectangular := by
    rw [Dataset.Rectangular]
    decide
  exact ⟨hwrite, read_of_write rfl ⟨by decide, by decide, hrect, hcells⟩ hwrite⟩

end Folder

end Provenance
