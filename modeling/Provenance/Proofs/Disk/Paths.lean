import Provenance.Disk.Basic
import Provenance.Proofs.Text.Pieces

/-!
# Companions of a file

Beside a file stand its companions, whose paths are the path of the file with a text behind it.  That
makes them companions on the disk only if the path ends in a name (`IsFile`): behind a slash the text would
be a name of its own, inside the directory that the path speaks of.  If it does end in a name, the
components of a companion are those of the file with the text behind the last name
(`IsFile.exists_components`), so wherever the paths of companions lead, they lead beside one place
(`IsFile.exists_place`).

Where a path leads is a matter of the directories alone: on a disk that has the same ones it leads to the
same place (`SameDirectories.locate_eq_ok`).
-/

namespace Provenance.Disk

theorem Place.beside_empty (p : Place) : p.beside "" = p := by
  simp [beside]

theorem Place.beside_ne {s t : String} (h : s ≠ t) (p : Place) : p.beside s ≠ p.beside t := by
  intro he
  have htext : p.text ++ s = p.text ++ t := congrArg text he
  exact h (by simpa using htext)

theorem Place.beside_ne_self {s : String} (h : s ≠ "") (p : Place) : p.beside s ≠ p := by
  have hne := beside_ne h p
  rwa [beside_empty] at hne

/-! ### Paths that end in a name -/

/-- Whether a path ends in a name that can be given to a file. -/
structure IsFile (path : String) : Prop where
  notDirectory : wantsDirectory path = false
  notDots : endsInDots path = false

/-- What the pieces in front of the last name mean. -/
def Path.leading : List String → List Path.Component
  | "" :: rest => .root :: Path.named rest
  | "." :: rest => .here :: Path.named rest
  | pieces => Path.named pieces

/-- Whether a piece is a name. -/
def Path.IsName (n : String) : Prop := n ≠ "" ∧ n ≠ "." ∧ n ≠ ".."

theorem Path.named_append_singleton {n : String} (h : Path.IsName n) (pieces : List String) :
    Path.named (pieces ++ [n]) = Path.named pieces ++ [.name n] := by
  obtain ⟨hempty, hdot, hdots⟩ := h
  simp [Path.named, hempty, hdot, hdots]

/-- Only an empty piece and a dot mean more in front than elsewhere. -/
theorem Path.leading_cons {a : String} (hroot : a ≠ "") (hhere : a ≠ ".") (pieces : List String) :
    Path.leading (a :: pieces) = Path.named (a :: pieces) := by
  unfold leading
  split
  · exact absurd (List.cons.inj ‹_›).1 hroot
  · exact absurd (List.cons.inj ‹_›).1 hhere
  · rfl

/-- A path whose last piece is a name means what the pieces in front mean, and the name. -/
theorem Path.components_of_splitAll {path n : String} {init : List String} (hn : Path.IsName n)
    (h : Text.splitAll '/' path = init ++ [n]) :
    Path.components path = Path.leading init ++ [.name n] := by
  have hnamed := named_append_singleton hn
  rw [components, h]
  match init with
  | [] =>
    obtain ⟨hempty, hdot, hdots⟩ := hn
    simp [leading, named, hempty, hdot, hdots]
  | i :: init =>
    have hrest := hnamed init
    have hall := hnamed (i :: init)
    rw [List.cons_append] at hall ⊢
    obtain ⟨a, as, has⟩ : ∃ a as, init ++ [n] = a :: as := List.exists_cons_of_ne_nil (by simp)
    rw [has] at hrest hall ⊢
    by_cases hroot : i = ""
    · subst hroot
      exact congrArg (Component.root :: ·) hrest
    · by_cases hhere : i = "."
      · subst hhere
        exact congrArg (Component.here :: ·) hrest
      · rw [leading_cons hroot hhere, ← hall]
        split
        · exact absurd (List.cons.inj ‹_›).1 hroot
        · exact absurd (List.cons.inj ‹_›).1 hhere
        · rfl

/-- The pieces that are no names are those that two dots begin with. -/
theorem Path.isName_iff (n : String) : IsName n ↔ ¬ n.toList <+: ['.', '.'] := by
  have hempty : n = "" ↔ n.toList = [] := String.toList_inj.symm
  have hdot : n = "." ↔ n.toList = ['.'] := String.toList_inj.symm
  have hdots : n = ".." ↔ n.toList = ['.', '.'] := String.toList_inj.symm
  rw [IsName, ne_eq, ne_eq, ne_eq, hempty, hdot, hdots]
  generalize n.toList = cs
  simp only [List.prefix_cons_iff, List.prefix_nil]
  grind

/-- A name with a text behind it is a name. -/
theorem Path.IsName.append {n : String} (h : IsName n) (t : String) : IsName (n ++ t) := by
  rw [isName_iff] at h ⊢
  rw [String.toList_append]
  exact fun hprefix => h ((List.prefix_append _ _).trans hprefix)

/-- What a path wants of its end, in its characters. -/
theorem wantsDirectory_iff (path : String) :
    wantsDirectory path = true ↔ ['/'] <:+ path.toList ∨ ['/', '.'] <:+ path.toList := by
  rw [wantsDirectory, Bool.or_eq_true, String.endsWith, String.endsWith,
    String.Slice.endsWith_string_iff, String.Slice.endsWith_string_iff]
  simp

/-- A path with a text behind it wants no directory, if the text ends in no slash and no dot. -/
theorem wantsDirectory_append {path t : String} {c : Char} (ht : t.toList.getLast? = some c)
    (hslash : c ≠ '/') (hdot : c ≠ '.') : wantsDirectory (path ++ t) = false := by
  rw [← Bool.not_eq_true, wantsDirectory_iff, String.toList_append]
  rintro (⟨cs, h⟩ | ⟨cs, h⟩)
  · have hlast := congrArg List.getLast? h
    simp [List.getLast?_append, ht] at hlast
    exact hslash hlast.symm
  · have hlast := congrArg List.getLast? h
    simp [List.getLast?_append, ht] at hlast
    exact hdot hlast.symm

/-- A path that ends in a name ends in a piece that is one, and a text behind the path is a text behind the
name. -/
theorem IsFile.exists_splitAll {path : String} (h : IsFile path) :
    ∃ (init : List String) (n : String), Path.IsName n ∧
      ∀ t : String, '/' ∉ t.toList → Text.splitAll '/' (path ++ t) = init ++ [n ++ t] := by
  obtain ⟨init, n, hsplit, hn⟩ := Text.exists_splitAll_append '/' path
  have hempty : n ≠ "" := by
    intro hn'
    rcases hn hn' with rfl | hslash
    · exact absurd h.notDots (by decide)
    · exact absurd h.notDirectory (by rw [(wantsDirectory_iff path).2 (.inl hslash)]; decide)
  have hpath := hsplit "" (by simp)
  rw [String.append_empty, String.append_empty] at hpath
  have hdots := h.notDots
  simp [endsInDots, hpath, hempty] at hdots
  exact ⟨init, n, ⟨hempty, hdots⟩, hsplit⟩

/-- The components of a companion are those of the file, with the text behind the last name. -/
theorem IsFile.exists_components {path : String} (h : IsFile path) :
    ∃ (leading : List Path.Component) (n : String), ∀ t : String, '/' ∉ t.toList →
      Path.components (path ++ t) = leading ++ [.name (n ++ t)] := by
  obtain ⟨init, n, hname, hsplit⟩ := h.exists_splitAll
  exact ⟨Path.leading init, n, fun t ht => Path.components_of_splitAll (hname.append t) (hsplit t ht)⟩

/-- The path of a companion ends in a name too. -/
theorem IsFile.append {path t : String} (h : IsFile path) {c : Char} (ht : '/' ∉ t.toList)
    (hlast : t.toList.getLast? = some c) (hdot : c ≠ '.') : IsFile (path ++ t) := by
  refine ⟨wantsDirectory_append hlast ?_ hdot, ?_⟩
  · rintro rfl
    exact ht (List.mem_of_getLast? hlast)
  · obtain ⟨init, n, hname, hsplit⟩ := h.exists_splitAll
    obtain ⟨hempty, hhere, hup⟩ := hname.append t
    simp [endsInDots, hsplit t ht, hempty, hhere, hup]

/-! ### Where a path leads -/

theorem way_last_eq_ok_iff {d : Disk} {p q : Place} {n : String} :
    d.way p [.name n] = .ok q ↔ tooLong n = false ∧ p.inside n = q := by
  cases hn : tooLong n <;> simp [way, hn]

/-- A name that is not the last has to be a directory. -/
theorem way_name_eq_ok_iff {d : Disk} {p q : Place} {n : String} {rest : List Path.Component}
    (hrest : rest ≠ []) :
    d.way p (.name n :: rest) = .ok q ↔
      tooLong n = false ∧ d.find? (p.inside n) = some .directory ∧ d.way (p.inside n) rest = .ok q := by
  have hempty : rest.isEmpty = false := by simpa using hrest
  cases hn : tooLong n with
  | true => simp [way, hn]
  | false =>
    rw [way, hn, hempty]
    simp only [Bool.false_eq_true, if_false]
    split <;> simp_all

/-- The way over a last name ends inside the directory where the way to it ends, whatever the name. -/
theorem exists_of_way_append {d : Disk} {n : String} (cs : List Path.Component) {p q : Place}
    (h : d.way p (cs ++ [.name n]) = .ok q) :
    ∃ directory : Place, directory.inside n = q ∧ ∀ m, d.way p (cs ++ [.name m]) =
      if tooLong m then .error .nameTooLong else .ok (directory.inside m) := by
  induction cs generalizing p with
  | nil => exact ⟨p, (way_last_eq_ok_iff.1 h).2, fun m => rfl⟩
  | cons c cs ih =>
    cases c with
    | root => exact ih h
    | here => exact ih h
    | up => exact ih h
    | name k =>
      have hne : ∀ m, cs ++ [Path.Component.name m] ≠ [] := fun m => by simp
      obtain ⟨hk, hfind, hway⟩ := (way_name_eq_ok_iff (hne n)).1 h
      obtain ⟨directory, hq, hother⟩ := ih hway
      refine ⟨directory, hq, fun m => ?_⟩
      rw [← hother m, List.cons_append, way, hk, hfind]
      simp

/-- Two disks have the same directories. -/
def SameDirectories (d d' : Disk) : Prop :=
  ∀ p, d.find? p = some .directory ↔ d'.find? p = some .directory

theorem SameDirectories.trans {d d' d'' : Disk} (h : SameDirectories d d')
    (h' : SameDirectories d' d'') : SameDirectories d d'' := fun p => (h p).trans (h' p)

theorem SameDirectories.symm {d d' : Disk} (h : SameDirectories d d') : SameDirectories d' d :=
  fun p => (h p).symm

/-- A way that is open stays open where there are more directories. -/
theorem way_mono {d d' : Disk} (h : ∀ p, d.find? p = some .directory → d'.find? p = some .directory) :
    ∀ (cs : List Path.Component) {p q : Place}, d.way p cs = .ok q → d'.way p cs = .ok q
  | [], _, _, hway => hway
  | .root :: cs, _, _, hway => way_mono h cs hway
  | .here :: cs, _, _, hway => way_mono h cs hway
  | .up :: cs, _, _, hway => way_mono h cs hway
  | [.name n], _, _, hway => way_last_eq_ok_iff.2 (way_last_eq_ok_iff.1 hway)
  | .name n :: c :: cs, _, _, hway => by
    obtain ⟨hn, hfind, hway⟩ := (way_name_eq_ok_iff (List.cons_ne_nil c cs)).1 hway
    exact (way_name_eq_ok_iff (List.cons_ne_nil c cs)).2 ⟨hn, h _ hfind, way_mono h (c :: cs) hway⟩

theorem locate_eq_ok_iff {d : Disk} {path : String} {q : Place} :
    d.locate path = .ok q ↔ refusal? path = none ∧ d.way .top (Path.components path) = .ok q := by
  unfold locate
  cases refusal? path <;> simp

theorem locate_mono {d d' : Disk} (h : ∀ p, d.find? p = some .directory → d'.find? p = some .directory)
    {path : String} {q : Place} (hq : d.locate path = .ok q) : d'.locate path = .ok q := by
  rw [locate_eq_ok_iff] at hq ⊢
  exact ⟨hq.1, way_mono h _ hq.2⟩

/-- **Where a path leads is a matter of the directories alone.** -/
theorem SameDirectories.locate_eq_ok {d d' : Disk} (h : SameDirectories d d') {path : String} {q : Place}
    (hq : d.locate path = .ok q) : d'.locate path = .ok q :=
  locate_mono (fun p => (h p).1) hq

/-- **Companions stand beside one place**, wherever their paths lead. -/
theorem IsFile.exists_place {path : String} (h : IsFile path) {d : Disk} {q : Place} {t : String}
    (ht : '/' ∉ t.toList) (hq : d.locate (path ++ t) = .ok q) :
    ∃ p : Place, ∀ t' : String, '/' ∉ t'.toList → ∀ q', d.locate (path ++ t') = .ok q' →
      q' = p.beside t' := by
  obtain ⟨leading, n, hcomponents⟩ := h.exists_components
  rw [locate_eq_ok_iff, hcomponents t ht] at hq
  obtain ⟨directory, -, hother⟩ := exists_of_way_append leading hq.2
  refine ⟨directory.inside n, fun t' ht' q' hq' => ?_⟩
  rw [locate_eq_ok_iff, hcomponents t' ht', hother] at hq'
  obtain ⟨-, hq'⟩ := hq'
  split at hq'
  · cases hq'
  · rw [← Except.ok.inj hq']
    simp [Place.beside, Place.inside, String.append_assoc]

/-- **A companion stands beside its file**, if both paths lead somewhere. -/
theorem IsFile.place_append {path : String} (h : IsFile path) {d : Disk} {q q' : Place} {t : String}
    (ht : '/' ∉ t.toList) (hq : d.locate path = .ok q) (hq' : d.locate (path ++ t) = .ok q') :
    q' = q.beside t := by
  rw [← String.append_empty (s := path)] at hq
  obtain ⟨p, hp⟩ := h.exists_place (by simp) hq
  rw [hp t ht q' hq', hp "" (by simp) q hq, Place.beside_empty]

/-- If a path leads to the same place on two disks, then so does the path of a companion, or it leads
nowhere on both. -/
theorem IsFile.locate_append_congr {path : String} (h : IsFile path) {d d' : Disk} {q : Place} {t : String}
    (ht : '/' ∉ t.toList) (hq : d.locate path = .ok q) (hq' : d'.locate path = .ok q) :
    d.locate (path ++ t) = d'.locate (path ++ t) := by
  obtain ⟨leading, n, hcomponents⟩ := h.exists_components
  have hpath := hcomponents "" (by simp)
  rw [String.append_empty, String.append_empty] at hpath
  rw [locate_eq_ok_iff, hpath] at hq hq'
  obtain ⟨directory, hplace, hway⟩ := exists_of_way_append leading hq.2
  obtain ⟨directory', hplace', hway'⟩ := exists_of_way_append leading hq'.2
  obtain rfl : directory = directory' := by
    have htext := congrArg Place.text (hplace.trans hplace'.symm)
    have hname := (String.append_left_inj n).1 htext
    have hslash := (String.append_left_inj "/").1 hname
    cases directory
    cases directory'
    exact congrArg Place.mk hslash
  rw [locate, locate, hcomponents t ht, hway, hway']

end Provenance.Disk
