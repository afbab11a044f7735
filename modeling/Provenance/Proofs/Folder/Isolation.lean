import Provenance.Proofs.Disk.Tree
import Provenance.Proofs.Folder
import Provenance.Proofs.Folder.Files

/-!
# What a write does to the other files of a folder

A write makes directories, and apart from that it only touches the place of its file and the three places
beside it (`Written`).  The file of another asset is none of these if its path has other names: all files of
a folder end in the extension of a format, and what stands beside a file does not
(`beside_ne_of_getLast?`).  So another file is there afterwards exactly if it was there before, and is read
as before (`answers_of_write`).  For a file that was not there the system may give another reason, because
there are more directories.

The names of its path are all that tells an asset from another here, and they come from the location alone.
Two assets whose locations lead to one file have the file in common, whatever their names are: a write to
one of them is seen by the other (`answers_of_write_shared`).
-/

namespace Provenance.Folder

open Disk (Place Change Grown Tree)
open Disk.Path

variable {root file other : String} {a b : Asset} {data : Dataset} {d d' : Disk} {p q : Place}

/-! ### The ends of the files of a folder -/

/-- The path of an asset takes no step outwards if the root takes none, and it ends in a name with the
extension of a format. -/
theorem exists_name_of_path (hroot : .up ∉ components root) (hfile : path root a = .ok file) :
    .up ∉ components file ∧ ∃ cs n, components file = cs ++ [.name n] ∧
      a.format.extension.toList <:+ n.toList := by
  obtain ⟨hbelow, rfl⟩ := path_eq_ok_iff.1 hfile
  obtain ⟨names, -, hjoin⟩ := components_join_relative root hbelow
  have hup : .up ∉ components (join root (relative a.address.location)) := by
    rw [hjoin, List.mem_append, List.mem_map]
    rintro (h | ⟨n, -, h⟩)
    · exact hroot h
    · cases h
  obtain ⟨m, hm, ⟨front, n, hfront, hname⟩ | ⟨-, hname⟩⟩ :=
    components_withExtension (join root (relative a.address.location)) a.format
  · rw [hfront] at hup
    rw [hname]
    refine ⟨?_, front, m, rfl, hm⟩
    simpa using hup
  · rw [hname]
    refine ⟨?_, _, m, rfl, hm⟩
    simpa using hup

/-- Whether a place ends as the formats do. -/
def EndsInFormat (p : Place) : Prop :=
  p.text.toList.getLast? = some 'v' ∨ p.text.toList.getLast? = some 'n'

theorem endsInFormat_of_locate (hroot : .up ∉ components root) (hfile : path root a = .ok file)
    (hp : d.locate file = .ok p) : EndsInFormat p := by
  obtain ⟨hup, cs, n, hcomponents, hend⟩ := exists_name_of_path hroot hfile
  have hnames : names file = cs.filterMap Component.text? ++ [n] := by
    rw [names, hcomponents, List.filterMap_append]
    rfl
  have hlast : n.toList.getLast? = a.format.extension.toList.getLast? := by
    obtain ⟨front, hfront⟩ := hend
    rw [← hfront, List.getLast?_append]
    cases a.format <;> rfl
  rw [Disk.eq_within_of_locate hup hp, hnames, Place.within_append_singleton, EndsInFormat, Place.inside,
    String.toList_append, List.getLast?_append, hlast]
  cases a.format
  · exact .inl rfl
  · exact .inr rfl

/-- What stands beside a file is no other file, and no schema of another file. -/
theorem beside_ne_of_getLast? (hp : EndsInFormat p) (hq : EndsInFormat q) (hne : q ≠ p) {s t : String}
    (hs : s = "" ∨ s = ".schema") (ht : t ∈ companions) : q.beside s ≠ p.beside t := by
  intro heq
  have htext : q.text ++ s = p.text ++ t := congrArg Place.text heq
  by_cases hst : s = t
  · subst hst
    have hplaces := (String.append_left_inj s).1 htext
    cases p
    cases q
    exact hne (congrArg Place.mk hplaces)
  · -- the last characters differ
    have hlast := congrArg (fun s : String => s.toList.getLast?) htext
    simp only [String.toList_append, List.getLast?_append] at hlast
    simp only [companions, List.mem_cons, List.not_mem_nil, or_false] at ht
    rcases hs with rfl | rfl <;> rcases ht with rfl | rfl | rfl | rfl <;>
      rcases hp with hp | hp <;> rcases hq with hq | hq <;> simp_all

/-! ### The frame of a write -/

/-- What a write of a file leaves behind: the file, and elsewhere what was there, and directories. -/
structure Written (file : String) (p : Place) (d d' : Disk) : Prop where
  isFile : Disk.IsFile file
  locate : d'.locate file = .ok p
  exists_file : ∃ content n, d'.find? p = some (.file content n)
  directories : ∀ q, d.find? q = some .directory → d'.find? q = some .directory
  kept : ∀ {q e}, (∀ t ∈ companions, q ≠ p.beside t) → d.find? q = some e → d'.find? q = some e
  made : ∀ {q e}, (∀ t ∈ companions, q ≠ p.beside t) → d'.find? q = some e →
    d.find? q = some e ∨ e = .directory

theorem stop_of_writeFile {format : Format} (h : writeFile file format data d = (.ok (), d')) :
    (changes file format data).2 = none := by
  unfold writeFile at h
  simp only at h
  split at h
  · cases h
  · split at h
    · cases h
    · assumption

/-- The changes of a write that nothing stops: directories, changes of the file and of those beside it, and
at last the move onto the file. -/
theorem exists_changes {format : Format} (h : writeFile file format data d = (.ok (), d')) :
    ∃ cs, Disk.applyAll (.makeDirectories (parent file) :: (cs ++ [.rename (staging file) file])) d =
        (.ok (), d') ∧
      ∀ c ∈ cs ++ [.rename (staging file) file], c.files ≠ [] ∧
        ∀ f ∈ c.files, ∃ t ∈ companions, f = file ++ t := by
  have hchanges := applyAll_of_writeFile h
  have hstop := stop_of_writeFile h
  have hfile : ∃ t ∈ companions, file = file ++ t := ⟨"", by decide, String.append_empty.symm⟩
  have hstaging : ∃ t ∈ companions, staging file = file ++ t := ⟨".partial", by decide, rfl⟩
  have hschema : ∃ t ∈ companions, schemaPath file = file ++ t := ⟨".schema", by decide, rfl⟩
  have hboth : ∃ t ∈ companions, staging (schemaPath file) = file ++ t :=
    ⟨".schema.partial", by decide, staging_schemaPath file⟩
  unfold changes at hchanges hstop
  cases format with
  | csv =>
    simp only at hchanges hstop
    generalize Table.write data (Table.Schema.ofData data) = written at hchanges hstop
    obtain ⟨text, fault⟩ := written
    cases fault with
    | some fault => cases hstop
    | none =>
      refine ⟨[.writeFile (staging file) _, .writeFile (staging (schemaPath file)) _,
        .rename (staging (schemaPath file)) (schemaPath file)], hchanges, ?_⟩
      simp only [List.cons_append, List.nil_append, List.forall_mem_cons, List.not_mem_nil, false_implies,
        implies_true, and_true, Change.files]
      exact ⟨⟨by simp, hstaging⟩, ⟨by simp, hboth⟩, ⟨by simp, hboth, hschema⟩, by simp, hstaging, hfile⟩
  | json =>
    refine ⟨[.writeFile (staging file) _], hchanges, ?_⟩
    simp only [List.cons_append, List.nil_append, List.forall_mem_cons, List.not_mem_nil, false_implies,
      implies_true, and_true, Change.files]
    exact ⟨⟨by simp, hstaging⟩, by simp, hstaging, hfile⟩

/-- **What a write leaves behind.** -/
theorem exists_written {format : Format} (h : writeFile file format data d = (.ok (), d')) :
    ∃ p, Written file p d d' := by
  obtain ⟨cs, hchanges, hfiles⟩ := exists_changes h
  obtain ⟨made, hmake, hchanges⟩ := Disk.applyAll_cons_eq_ok hchanges
  rw [Disk.apply_makeDirectories] at hmake
  have hgrown : Grown d made := by
    have h := Disk.makeDirectories_grown d (parent file)
    rwa [hmake] at h
  obtain ⟨hdirs, hopen, hother⟩ := Disk.applyAll_eq_ok (fun c hc => (hfiles c hc).1) hchanges
  obtain ⟨d₁, -, hlast⟩ := Disk.applyAll_append_eq_ok hchanges
  obtain ⟨d₂, hmove, hend⟩ := Disk.applyAll_cons_eq_ok hlast
  obtain rfl : d₂ = d' := congrArg Prod.snd hend
  obtain ⟨hfile, hdirs₂, -, new, content, n, -, hnew, -, hfind, -⟩ :=
    Disk.rename_eq_ok (Disk.apply_rename_eq_ok_iff.1 hmove)
  have hlocate : d₂.locate file = .ok new := hdirs₂.locate_eq_ok hnew
  have hlocate' : made.locate (file ++ "") = .ok new := by
    rw [String.append_empty]
    exact hdirs.symm.locate_eq_ok hlocate
  obtain ⟨p, hp⟩ := hfile.exists_place (by decide) hlocate'
  obtain rfl : new = p := by rw [hp "" (by decide) new hlocate', Place.beside_empty]
  have hframe : ∀ q, (∀ t ∈ companions, q ≠ new.beside t) → d₂.find? q = made.find? q := by
    intro q hq
    refine hother q fun c hc f hf hlocate => ?_
    obtain ⟨t, ht, rfl⟩ := (hfiles c hc).2 f hf
    exact hq t ht (hp t (notMem_of_mem_companions ht) q hlocate)
  refine ⟨new, hfile, hlocate, ⟨content, n, hfind⟩, fun q hq => (hdirs q).1 (hgrown.kept hq),
    fun hq hfind => ?_, fun hq hfind => ?_⟩
  · rw [hframe _ hq]
    exact hgrown.kept hfind
  · rw [hframe _ hq] at hfind
    exact hgrown.made hfind

/-- **A disk that is a tree stays one**, also if the write fails. -/
theorem tree_write (h : Tree d) (root : String) (a : Asset) (data : Dataset) :
    Tree ((store root).write a data d).2 := by
  have hchanges := h.applyAll
  simp only [store]
  split
  · exact h
  · rename_i file _
    simp only [writeFile]
    have hfile := hchanges (changes file a.format data).1
    generalize Disk.applyAll (changes file a.format data).1 d = applied at hfile
    obtain ⟨result, d'⟩ := applied
    cases result with
    | error fault => exact hfile
    | ok _ => cases (changes file a.format data).2 <;> exact hfile

/-! ### The answers for another asset -/

/-- The place of a file with other names is none that a write touches, and neither is that of its schema. -/
theorem beside_ne_of_names_ne (hroot : .up ∉ components root) (hfile : path root a = .ok file)
    (hother : path root b = .ok other) (hnames : names other ≠ names file) (hp : d'.locate file = .ok p)
    (hq : d.locate other = .ok q) {s t : String} (hs : s = "" ∨ s = ".schema") (ht : t ∈ companions) :
    q.beside s ≠ p.beside t := by
  refine beside_ne_of_getLast? (endsInFormat_of_locate hroot hfile hp)
    (endsInFormat_of_locate hroot hother hq) (fun heq => hnames ?_) hs ht
  rw [Disk.eq_within_of_locate (exists_name_of_path hroot hfile).1 hp,
    Disk.eq_within_of_locate (exists_name_of_path hroot hother).1 hq] at heq
  exact Place.within_top_injective (fun _ => notMem_of_mem_names) (fun _ => notMem_of_mem_names) heq

/-- **Another file is there** after a write exactly if it was there before. -/
theorem Written.isFile_iff (hroot : .up ∉ components root) (htree : Tree d) (hfile : path root a = .ok file)
    (hother : path root b = .ok other) (hnames : names other ≠ names file) (h : Written file p d d') :
    d'.isFile other = true ↔ d.isFile other = true := by
  rw [Disk.isFile_iff, Disk.isFile_iff]
  constructor
  · rintro ⟨q, content, n, hq, hfind, hwants⟩
    have hfar : ∀ t ∈ companions, q ≠ p.beside t := fun t ht => by
      rw [← q.beside_empty]
      exact beside_ne_of_names_ne hroot hfile hother hnames h.locate hq (.inl rfl) ht
    have hfind : d.find? q = some (.file content n) :=
      (h.made hfar hfind).resolve_right (by simp)
    exact ⟨q, content, n,
      htree.locate_of_find? (exists_name_of_path hroot hother).1 hq hfind, hfind, hwants⟩
  · rintro ⟨q, content, n, hq, hfind, hwants⟩
    have hfar : ∀ t ∈ companions, q ≠ p.beside t := fun t ht => by
      rw [← q.beside_empty]
      exact beside_ne_of_names_ne hroot hfile hother hnames h.locate hq (.inl rfl) ht
    exact ⟨q, content, n, Disk.locate_mono h.directories hq, h.kept hfar hfind, hwants⟩

/-- A schema that stands where nobody writes is found as before. -/
theorem Written.schema?_eq (h : Written file p d d')
    (hlocate : d.locate (schemaPath other) = d'.locate (schemaPath other))
    (hfar : ∀ q, d.locate (schemaPath other) = .ok q → ∀ t ∈ companions, q ≠ p.beside t) :
    schema? d' other = schema? d other := by
  by_cases hfound : ∃ q e, d.locate (schemaPath other) = .ok q ∧ d.find? q = some e
  · obtain ⟨q, e, hq, hfind⟩ := hfound
    rw [schema?, schema?, Disk.read_congr hlocate fun q' hq' => ?_]
    obtain rfl : q = q' := Except.ok.inj (hq.symm.trans hq')
    rw [hfind, h.kept (hfar q hq) hfind]
  · -- there was no schema, and what may be there now is a directory
    have hnone : d.isFile (schemaPath other) = false := by
      rw [← Bool.not_eq_true, Disk.isFile_iff]
      rintro ⟨q, content, n, hq, hfind, -⟩
      exact hfound ⟨q, _, hq, hfind⟩
    have hnone' : d'.isFile (schemaPath other) = false := by
      rw [← Bool.not_eq_true, Disk.isFile_iff]
      rintro ⟨q, content, n, hq, hfind, -⟩
      rw [← hlocate] at hq
      exact hfound ⟨q, _, hq, (h.made (hfar q hq) hfind).resolve_right (by simp)⟩
    obtain ⟨fault, hread⟩ := Disk.exists_read_eq_error hnone
    obtain ⟨fault', hread'⟩ := Disk.exists_read_eq_error hnone'
    rw [schema?, schema?, hread, hread']

/-- **Another file is read** after a write as before. -/
theorem Written.readFile_eq (hroot : .up ∉ components root) (hfile : path root a = .ok file)
    (hother : path root b = .ok other) (hnames : names other ≠ names file) (h : Written file p d d')
    (hfound : d.isFile other = true) (format : Format) :
    readFile d' other format = readFile d other format := by
  obtain ⟨q, content, n, hq, hfind, hwants⟩ := Disk.isFile_iff.1 hfound
  have hfar : ∀ {s : String}, s = "" ∨ s = ".schema" → ∀ t ∈ companions, q.beside s ≠ p.beside t :=
    fun hs t ht => beside_ne_of_names_ne hroot hfile hother hnames h.locate hq hs ht
  have hq' : d'.locate other = .ok q := Disk.locate_mono h.directories hq
  have hfind' : d'.find? q = some (.file content n) := by
    refine h.kept (fun t ht => ?_) hfind
    rw [← q.beside_empty]
    exact hfar (.inl rfl) t ht
  have hread : d'.read other = d.read other :=
    (Disk.read_of_find? hwants hq' hfind').trans (Disk.read_of_find? hwants hq hfind).symm
  obtain ⟨-, cs, m, hcomponents, -⟩ := exists_name_of_path hroot hother
  have hisFile : Disk.IsFile other := isFile_of_components hwants hcomponents
  have hlocate : d.locate (schemaPath other) = d'.locate (schemaPath other) :=
    hisFile.locate_append_congr (by decide) hq hq'
  have hschema : schema? d' other = schema? d other := by
    refine h.schema?_eq hlocate fun r hr t ht => ?_
    rw [hisFile.place_append (by decide) hq hr]
    exact hfar (.inr rfl) t ht
  rw [readFile, readFile, hread, hschema]

theorem holds_of_path (hfile : path root a = .ok file) (d : Disk) :
    (store root).holds a d = (.ok (d.isFile file), d) := by
  simp only [store, hfile]
  rfl

/-- The file that was written is there, for whoever names it. -/
theorem Written.isFile_of_names_eq (hroot : .up ∉ components root) (hfile : path root a = .ok file)
    (hother : path root b = .ok other) (hnames : names other = names file) (h : Written file p d d') :
    d'.isFile other = ((Disk.refusal? other).isNone && !Disk.wantsDirectory other) := by
  rw [Bool.eq_iff_iff, Disk.isFile_iff, Bool.and_eq_true, Option.isNone_iff_eq_none, Bool.not_eq_true']
  constructor
  · rintro ⟨q, content, n, hq, -, hwants⟩
    exact ⟨(Disk.locate_eq_ok_iff.1 hq).1, hwants⟩
  · rintro ⟨hrefusal, hwants⟩
    obtain ⟨content, n, hfind⟩ := h.exists_file
    exact ⟨p, content, n, Disk.locate_of_names_eq (exists_name_of_path hroot hfile).1
      (exists_name_of_path hroot hother).1 hnames h.locate hrefusal, hfind, hwants⟩

/-- **What a folder answers for another asset after a write.**  If their files have the same names, the file
is there.  Otherwise it is there if it was there before, and is read as before if it was there. -/
theorem answers_of_write (hroot : .up ∉ components root) (htree : Tree d) (hfile : path root a = .ok file)
    (hother : path root b = .ok other) (h : (store root).write a data d = (.ok (), d')) :
    (names other = names file → (store root).holds b d' =
      (.ok ((Disk.refusal? other).isNone && !Disk.wantsDirectory other), d')) ∧
    (names other ≠ names file → (store root).holds b d' = (((store root).holds b d).1, d') ∧
      if d.isFile other then (store root).read b d' = (((store root).read b d).1, d')
      else ∃ fault fault', (store root).read b d = (.error fault, d) ∧
        (store root).read b d' = (.error fault', d')) := by
  obtain ⟨file', hfile', hwrite⟩ := writeFile_of_write h
  obtain rfl : file = file' := Except.ok.inj (hfile.symm.trans hfile')
  obtain ⟨p, hwritten⟩ := exists_written hwrite
  refine ⟨fun hnames => ?_, fun hnames => ?_⟩
  · rw [holds_of_path hother, hwritten.isFile_of_names_eq hroot hfile hother hnames]
  · have hisFile := hwritten.isFile_iff hroot htree hfile hother hnames
    rw [holds_of_path hother, holds_of_path hother, Bool.eq_iff_iff.2 hisFile]
    refine ⟨rfl, ?_⟩
    split
    · rename_i hfound
      rw [read_of_path hother, read_of_path hother,
        hwritten.readFile_eq hroot hfile hother hnames hfound]
    · rename_i hmissing
      rw [Bool.not_eq_true] at hmissing
      have hmissing' : d'.isFile other = false := (Bool.eq_iff_iff.2 hisFile).trans hmissing
      obtain ⟨fault, hread⟩ := Disk.exists_read_eq_error hmissing
      obtain ⟨fault', hread'⟩ := Disk.exists_read_eq_error hmissing'
      rw [read_of_path hother, read_of_path hother, readFile, readFile, hread, hread']
      exact ⟨_, _, rfl, rfl⟩

/-- A file beside another one whose name begins with the same letters, in a folder that holds both. -/
theorem answers_of_write_neighbour :
    let a : Asset := ⟨⟨"orders", "x"⟩, none, none, none, 0⟩
    let b : Asset := ⟨⟨"orders", "x.csv.schema"⟩, none, none, none, 0⟩
    let d := ((store "data").write b ⟨["n"], [[.int 1]]⟩ (Disk.withDirectory "data")).2
    let d' := ((store "data").write a ⟨["n"], [[.int 2]]⟩ d).2
    d.isFile "data/x.csv.schema.csv" = true ∧
      (store "data").holds b d' = (.ok true, d') ∧
      (store "data").read b d' = (((store "data").read b d).1, d') := by
  intro a b d d'
  have hwrite : (store "data").write a ⟨["n"], [[.int 2]]⟩ d = (.ok (), d') :=
    Prod.ext (by decide +kernel) rfl
  have hfile : path "data" a = .ok "data/x.csv" := by decide +kernel
  have hother : path "data" b = .ok "data/x.csv.schema.csv" := by decide +kernel
  have hfound : d.isFile "data/x.csv.schema.csv" = true := by decide +kernel
  have htree : Tree d := tree_write (Tree.withDirectory (by decide)) _ _ _
  obtain ⟨-, hanswers⟩ := answers_of_write (by decide) htree hfile hother hwrite
  obtain ⟨hholds, hread⟩ := hanswers (by decide +kernel)
  rw [if_pos hfound] at hread
  refine ⟨hfound, ?_, hread⟩
  rw [hholds, holds_of_path hother, hfound]

/-- **Assets with one location share their file**, whatever their names are. -/
theorem answers_of_write_shared :
    let a : Asset := ⟨⟨"a", "x"⟩, none, none, none, 0⟩
    let b : Asset := ⟨⟨"b", "x"⟩, none, none, none, 0⟩
    let d := Disk.withDirectory "data"
    let d' := ((store "data").write a ⟨["n"], [[.int 1]]⟩ d).2
    a.address ≠ b.address ∧ (store "data").write a ⟨["n"], [[.int 1]]⟩ d = (.ok (), d') ∧
      (store "data").holds b d = (.ok false, d) ∧ (store "data").holds b d' = (.ok true, d') := by
  intro a b d d'
  exact ⟨by decide, Prod.ext (by decide +kernel) rfl, Prod.ext (by decide +kernel) rfl,
    Prod.ext (by decide +kernel) rfl⟩

end Provenance.Folder
