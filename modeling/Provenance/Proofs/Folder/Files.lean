import Provenance.Proofs.Disk.Components
import Provenance.Store.Folder

/-!
# Where the files of a folder stand

A location is read as a path below the root, and a path that could lead anywhere else is refused, so all
that is written behind the root are names (`components_join_relative`).  Giving the file its extension comes
after that.  It changes the last name, and it does so whether the name was written behind the root or is
the root's own (`components_withExtension`).

So a location that names something leads to a file below the root.  But a location of slashes alone names
nothing, is not refused, and its file is the root with an extension behind it, which stands beside the root
(`path_below_iff`).
-/

namespace Provenance

/-- A path that leads below a root: the root, and names behind it. -/
def Disk.Path.Below (root path : String) : Prop :=
  ∃ names : List String, names ≠ [] ∧ components path = components root ++ names.map .name

namespace Folder

open Disk.Path

/-! ### Locations that name nothing -/

/-- A location of slashes alone, also behind the mark of a scheme without a name. -/
def Blank (location : String) : Prop :=
  (∀ c ∈ location.toList, c = '/') ∨
    ∃ cs, location.toList = ':' :: '/' :: '/' :: cs ∧ ∀ c ∈ cs, c = '/'

theorem splitScheme_of_forall {cs : List Char} (h : ∀ c ∈ cs, c = '/') : splitScheme cs = none := by
  induction cs with
  | nil => rfl
  | cons c cs ih =>
    obtain ⟨rfl, hcs⟩ := List.forall_mem_cons.1 h
    rw [splitScheme, ih hcs]
    · rfl
    · simp

/-- A scheme without a name has its mark in front. -/
theorem eq_of_splitScheme {cs path : List Char} (h : splitScheme cs = some ([], path)) :
    cs = ':' :: '/' :: '/' :: path := by
  unfold splitScheme at h
  split at h
  · rw [(Prod.mk.inj (Option.some.inj h)).2]
  · obtain ⟨_, -, heq⟩ := Option.map_eq_some_iff.1 h
    exact absurd (Prod.mk.inj heq).1 (List.cons_ne_nil _ _)
  · cases h

theorem bareText_eq_empty_iff {cs : List Char} : bareText cs = "" ↔ ∀ c ∈ cs, c = '/' := by
  simp [bareText]

theorem join_eq_empty_iff {base path : String} : join base path = "" ↔ base = "" ∧ path = "" := by
  constructor
  · intro h
    unfold join at h
    split at h
    · rename_i hstart
      rw [h] at hstart
      exact absurd hstart (by decide)
    · split at h
      · exact String.append_eq_empty_iff.1 h
      · simp at h
  · rintro ⟨rfl, rfl⟩
    rfl

/-- **The locations that name nothing.** -/
theorem relative_eq_empty_iff (location : String) : relative location = "" ↔ Blank location := by
  unfold relative Blank
  cases hsplit : splitScheme location.toList with
  | none =>
    dsimp only
    rw [bareText_eq_empty_iff]
    refine ⟨.inl, fun h => h.resolve_right ?_⟩
    rintro ⟨cs, hcs, -⟩
    rw [hcs] at hsplit
    cases hsplit
  | some parts =>
    obtain ⟨scheme, path⟩ := parts
    dsimp only
    rw [join_eq_empty_iff, bareText_eq_empty_iff]
    constructor
    · rintro ⟨hscheme, hpath⟩
      obtain rfl : scheme = [] := by simpa using hscheme
      exact .inr ⟨path, eq_of_splitScheme hsplit, hpath⟩
    · rintro (hall | ⟨cs, hcs, hall⟩)
      · rw [splitScheme_of_forall hall] at hsplit
        cases hsplit
      · rw [hcs] at hsplit
        obtain ⟨rfl, rfl⟩ := Prod.mk.inj (Option.some.inj hsplit)
        exact ⟨rfl, hall⟩

/-! ### Names behind the root -/

/-- A path that is not refused is made of names. -/
theorem exists_names {inner : String} (h : staysBelow inner = true) :
    ∃ names : List String, components inner = names.map .name := by
  unfold staysBelow at h
  generalize components inner = cs at h
  induction cs with
  | nil => exact ⟨[], rfl⟩
  | cons c cs ih =>
    rw [List.all_cons, Bool.and_eq_true] at h
    obtain ⟨names, hnames⟩ := ih h.2
    cases c with
    | name n => exact ⟨n :: names, by rw [hnames, List.map_cons]⟩
    | root | here | up => exact absurd h.1 (by simp)

/-- A path of names has no slash in front, and all its pieces count. -/
theorem named_of_names {inner : String} (hinner : inner ≠ "") {names : List String}
    (h : components inner = names.map .name) :
    ¬ ['/'] <+: inner.toList ∧ names ≠ [] ∧ named (Text.splitAll '/' inner) = names.map .name := by
  obtain ⟨a, as, hpieces⟩ := List.exists_cons_of_ne_nil (splitAll_ne_nil inner)
  rw [components_eq hinner, hpieces] at h
  have hroot : a ≠ "" := by
    rintro rfl
    cases names <;> cases h
  have hhere : a ≠ "." := by
    rintro rfl
    cases names <;> cases h
  rw [leading_cons hroot hhere] at h
  refine ⟨fun hslash => ?_, ?_, by rw [hpieces]; exact h⟩
  · obtain ⟨rest, hrest⟩ := hslash
    rw [Text.splitAll, ← hrest, List.singleton_append, Text.pieces] at hpieces
    exact hroot (List.cons.inj hpieces).1.symm
  · rintro rfl
    simp [named, hroot, hhere] at h

/-- **A path that is not refused adds names to the root.** -/
theorem components_join_relative (root : String) {inner : String} (h : staysBelow inner = true) :
    ∃ names : List String, (names = [] ↔ inner = "") ∧
      components (join root inner) = components root ++ names.map .name := by
  by_cases hinner : inner = ""
  · subst hinner
    refine ⟨[], ⟨fun _ => rfl, fun _ => rfl⟩, ?_⟩
    by_cases hroot : root = ""
    · subst hroot
      rfl
    · rw [components_join hroot (by simp)]
      rfl
  · obtain ⟨names, hnames⟩ := exists_names h
    obtain ⟨hslash, hne, hnamed⟩ := named_of_names hinner hnames
    refine ⟨names, ⟨fun heq => absurd heq hne, fun heq => absurd heq hinner⟩, ?_⟩
    by_cases hroot : root = ""
    · subst hroot
      rw [join_empty hslash, hnames]
      rfl
    · rw [components_join hroot hslash, hnamed]

/-! ### The extension -/

/-- The extension is an end of the last name. -/
theorem suffix_of_extension? {path n t : String} (hn : fileName? path = some n)
    (h : extension? path = some t) : t.toList <:+ n.toList := by
  rw [extension?, hn] at h
  dsimp only at h
  split at h
  · rw [← Option.some.inj h, String.toList_ofList, ← List.reverse_prefix, List.reverse_reverse]
    exact List.takeWhile_prefix _
  · cases h

/-- **What the extension changes**: the last name, which then ends in it, and a path without one gets
one. -/
theorem components_withExtension (path : String) (format : Format) :
    ∃ m : String, format.extension.toList <:+ m.toList ∧
      ((∃ front n, components path = front ++ [.name n] ∧
        components (withExtension path format.extension) = front ++ [.name m]) ∨
      fileName? path = none ∧
        components (withExtension path format.extension) = components path ++ [.name m]) := by
  have hslash : '/' ∉ ("." ++ format.extension).toList := by cases format <;> decide
  have hend : ∀ n : String, format.extension.toList <:+ (n ++ "." ++ format.extension).toList := by
    intro n
    rw [String.toList_append]
    exact List.suffix_append _ _
  cases hname : fileName? path with
  | some n =>
    have hpath := components_eq_parent hname
    unfold withExtension
    split
    · rename_i hextension
      exact ⟨n, suffix_of_extension? hname hextension, .inl ⟨components (parent path), n, hpath, hpath⟩⟩
    · have hmem : .name n ∈ components path := by rw [hpath]; simp
      obtain ⟨hn, hn'⟩ := isName_of_mem_components hmem
      refine ⟨n ++ "." ++ format.extension, hend n, .inl ⟨components (parent path), n, hpath, ?_⟩⟩
      rw [hname, Option.getD_some, String.append_assoc]
      refine components_withFileName hname (hn.append _) ?_
      rw [String.toList_append, List.mem_append]
      exact fun h => h.elim hn' hslash
  | none =>
    refine ⟨"." ++ format.extension, hend "", .inr ⟨rfl, ?_⟩⟩
    have hnone : extension? path ≠ some format.extension := by
      rw [extension?, hname]
      simp
    have hdot : IsName ("." ++ format.extension) := by
      cases format <;> exact ⟨by decide, by decide, by decide⟩
    have hstart : ¬ ['/'] <+: ("." ++ format.extension).toList :=
      fun h => hslash (h.subset (List.mem_singleton.2 rfl))
    rw [withExtension, if_neg hnone, hname, withFileName, hname, Option.getD_none, String.empty_append]
    dsimp only
    by_cases hpath : path = ""
    · subst hpath
      rw [join_empty hstart, components_of_isName hdot hslash]
      rfl
    · rw [components_join hpath hstart, Text.splitAll_of_notMem hslash, named_singleton hdot]

variable {root p : String} {a : Asset}

theorem path_eq_ok_iff : path root a = .ok p ↔ staysBelow (relative a.address.location) = true ∧
    withExtension (join root (relative a.address.location)) a.format.extension = p := by
  unfold path
  dsimp only
  split <;> simp_all

theorem path_eq_error (h : staysBelow (relative a.address.location) = false) :
    path root a = .error (Store.fault a .outsideRoot) ∧
      ∃ c ∈ components (relative a.address.location), ∀ n, c ≠ .name n := by
  constructor
  · unfold path
    dsimp only
    rw [h]
    rfl
  · obtain ⟨c, hc, hname⟩ := List.all_eq_false.1 h
    exact ⟨c, hc, fun n heq => hname (by rw [heq])⟩

/-- **A location that names something leads to a file below the root**, unless there is more to it than
names, which is refused.  A location that names nothing is not refused, and its file does not stand below
the root. -/
theorem path_below_iff (hroot : (fileName? root).isSome) (a : Asset) :
    (path root a = .error (Store.fault a .outsideRoot) ∧
      ∃ c ∈ components (relative a.address.location), ∀ n, c ≠ .name n) ∨
    ∃ p, path root a = .ok p ∧ (Below root p ↔ ¬ Blank a.address.location) := by
  cases hbelow : staysBelow (relative a.address.location) with
  | false => exact .inl (path_eq_error hbelow)
  | true =>
    refine .inr ⟨_, path_eq_ok_iff.2 ⟨hbelow, rfl⟩, ?_⟩
    obtain ⟨names, hempty, hjoin⟩ := components_join_relative root hbelow
    rw [← relative_eq_empty_iff, ← hempty]
    obtain ⟨m, -, ⟨front, n, hfront, hfile⟩ | ⟨hnone, -⟩⟩ :=
      components_withExtension (join root (relative a.address.location)) a.format
    · rw [hjoin] at hfront
      constructor
      · rintro ⟨behind, hne, hbehind⟩ rfl
        -- the root has the name that was changed, so the file has as many components as the root
        rw [List.map_nil, List.append_nil] at hfront
        rw [hfile, hfront] at hbehind
        have hlength := congrArg List.length hbehind
        have hpos := List.length_pos_iff.2 hne
        simp only [List.length_append, List.length_map, List.length_singleton] at hlength
        omega
      · intro hne
        obtain ⟨init, last, rfl⟩ := (List.eq_nil_or_concat names).resolve_left hne
        rw [List.concat_eq_append, List.map_append, ← List.append_assoc] at hfront
        obtain ⟨rfl, -⟩ := List.append_inj' hfront rfl
        refine ⟨init ++ [m], by simp, ?_⟩
        rw [hfile, List.map_append, List.append_assoc]
        rfl
    · rw [fileName?, hjoin] at hnone
      rcases List.eq_nil_or_concat names with rfl | ⟨init, last, rfl⟩
      · rw [List.map_nil, List.append_nil] at hnone
        rw [fileName?, hnone] at hroot
        exact absurd hroot Bool.false_ne_true
      · simp at hnone

/-- A scheme, doubled slashes, a dot and an extension. -/
theorem path_below_iff_dotted :
    let a : Asset := ⟨⟨"orders", "s3://lake//raw/./orders.csv/."⟩, none, none, none, 0⟩
    (fileName? "data/.").isSome ∧ ∃ p, path "data/." a = .ok p ∧ Below "data/." p := by
  intro a
  have hroot : (fileName? "data/.").isSome := by decide
  have hcomponents : components (relative a.address.location) =
      ["s3", "lake", "raw", "orders.csv"].map .name := by decide +kernel
  refine ⟨hroot, ?_⟩
  rcases path_below_iff hroot a with ⟨-, c, hc, hname⟩ | ⟨p, hp, hiff⟩
  · rw [hcomponents] at hc
    obtain ⟨n, -, rfl⟩ := List.mem_map.1 hc
    exact absurd rfl (hname n)
  · refine ⟨p, hp, hiff.2 fun hblank => ?_⟩
    rw [(relative_eq_empty_iff _).2 hblank] at hcomponents
    exact absurd hcomponents (by decide)

/-- **A location that names nothing leads out of the root.** -/
theorem path_beside_root :
    let a : Asset := ⟨⟨"orders", ""⟩, none, none, none, 0⟩
    path "data" a = .ok "data.csv" ∧ ¬ Below "data" "data.csv" := by
  refine ⟨by decide +kernel, ?_⟩
  rintro ⟨names, -, h⟩
  have hroot : components "data" = [.name "data"] := by decide
  have hfile : components "data.csv" = [.name "data.csv"] := by decide
  rw [hroot, hfile] at h
  exact absurd (Component.name.inj (List.cons.inj h).1) (by decide)

end Folder

end Provenance
