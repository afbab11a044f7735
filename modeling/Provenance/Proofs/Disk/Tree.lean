import Mathlib.Data.List.Induction
import Mathlib.Data.List.TakeDrop
import Provenance.Proofs.Disk.Directories

/-!
# Disks that are trees

Nothing keeps a list of entries from having a file where there is no directory.  But no change of a disk
puts an entry anywhere except in a directory, and none takes a directory away, so a disk that is a tree
stays one (`Tree.applyAll`).

On a path without steps outwards only the names count (`Path.names`), and where it leads, if it leads
anywhere, is the place of the names and no matter of the disk (`eq_within_of_locate`).  Different names have
different places (`Place.within_top_injective`).  And on a tree the way to a place is open as soon as
anything stands there (`Tree.locate_of_find?`).
-/

namespace Provenance.Disk

/-! ### Places inside one another -/

namespace Place

variable {n m : String}

theorem split_inside (hn : '/' ∉ n.toList) (p : Place) :
    (p.inside n).split = (n.toList.reverse, '/' :: p.text.toList.reverse) := by
  have htext : (p.inside n).text.toList.reverse = n.toList.reverse ++ '/' :: p.text.toList.reverse := by
    simp [inside]
  have hall : ∀ c ∈ n.toList.reverse, (decide (c ≠ '/')) = true := by
    intro c hc
    exact decide_eq_true fun heq => hn (heq ▸ List.mem_reverse.1 hc)
  rw [split, htext, List.span_eq_takeWhile_dropWhile, List.takeWhile_append_of_pos hall,
    List.dropWhile_append_of_pos hall]
  simp

theorem outside_inside (hn : '/' ∉ n.toList) (p : Place) : (p.inside n).outside = p := by
  rw [outside, split_inside hn]
  simp

theorem name_inside (hn : '/' ∉ n.toList) (p : Place) : (p.inside n).name = n := by
  rw [name, split_inside hn]
  simp

theorem inside_ne_top (n : String) (p : Place) : p.inside n ≠ .top := by
  intro h
  have htext := congrArg text h
  simp [inside, top] at htext

/-- The place that names lead to, one inside the other. -/
def within (p : Place) (names : List String) : Place := names.foldl inside p

theorem within_append_singleton (p : Place) (names : List String) (n : String) :
    p.within (names ++ [n]) = (p.within names).inside n := by
  rw [within, List.foldl_append]
  rfl

/-- **Different names have different places.** -/
theorem within_top_injective {ns ms : List String} (hns : ∀ n ∈ ns, '/' ∉ n.toList)
    (hms : ∀ m ∈ ms, '/' ∉ m.toList) (h : top.within ns = top.within ms) : ns = ms := by
  induction ns using List.reverseRecOn generalizing ms with
  | nil =>
    rcases List.eq_nil_or_concat ms with rfl | ⟨ms, m, rfl⟩
    · rfl
    · rw [List.concat_eq_append, within_append_singleton] at h
      exact absurd h.symm (inside_ne_top _ _)
  | append_singleton ns n ih =>
    rcases List.eq_nil_or_concat ms with rfl | ⟨ms, m, rfl⟩
    · rw [within_append_singleton] at h
      exact absurd h (inside_ne_top _ _)
    · rw [List.concat_eq_append] at h hms ⊢
      rw [within_append_singleton, within_append_singleton] at h
      rw [List.forall_mem_append, List.forall_mem_singleton] at hns hms
      have hname := congrArg name h
      have houtside := congrArg outside h
      rw [name_inside hns.2, name_inside hms.2] at hname
      rw [outside_inside hns.2, outside_inside hms.2] at houtside
      rw [ih hns.1 hms.1 houtside, hname]

end Place

/-! ### Trees -/

/-- Whatever stands on the disk stands in a directory. -/
def Tree (d : Disk) : Prop := ∀ p e, d.find? p = some e → d.find? p.outside = some .directory

namespace Tree

variable {d d' : Disk} {p q : Place}

/-- A tree stays one if it loses no directory and all that is new stands in a directory. -/
theorem of_grown (h : Tree d)
    (hdirs : ∀ p, d.find? p = some .directory → d'.find? p = some .directory)
    (hnew : ∀ p e, d'.find? p = some e → d.find? p = none → d.find? p.outside = some .directory) :
    Tree d' := by
  intro p e hp
  apply hdirs
  cases hfind : d.find? p with
  | none => exact hnew p e hp hfind
  | some e' => exact h p e' hfind

/-- The directory around a place that names lead to is there if anything is there. -/
theorem find?_of_within (h : Tree d) : ∀ {names : List String} {p : Place} {e : Entry},
    (∀ n ∈ names, '/' ∉ n.toList) → names ≠ [] → d.find? (p.within names) = some e →
      d.find? p = some .directory
  | [], _, _, _, hne, _ => absurd rfl hne
  | [n], p, e, hslash, _, hfind => by
    have houtside := h (p.inside n) e hfind
    rw [Place.outside_inside (hslash n List.mem_cons_self)] at houtside
    exact houtside
  | n :: m :: names, p, e, hslash, _, hfind => by
    have hinside : d.find? (p.inside n) = some .directory :=
      h.find?_of_within (fun k hk => hslash k (List.mem_cons_of_mem n hk)) (List.cons_ne_nil m names) hfind
    have houtside := h (p.inside n) .directory hinside
    rw [Place.outside_inside (hslash n List.mem_cons_self)] at houtside
    exact houtside

/-- A way ends in a directory. -/
theorem find?_outside_of_way (h : Tree d) : ∀ {cs : List Path.Component} {p q : Place},
    (∀ n, .name n ∈ cs → '/' ∉ n.toList) → d.find? p = some .directory → d.way p cs = .ok q →
      d.find? q.outside = some .directory
  | [], p, q, _, hp, hway => by
    obtain rfl : p = q := Except.ok.inj hway
    exact h p .directory hp
  | .root :: cs, p, q, hslash, _, hway =>
    h.find?_outside_of_way (fun n hn => hslash n (List.mem_cons_of_mem _ hn)) (find?_top d) hway
  | .here :: cs, p, q, hslash, hp, hway =>
    h.find?_outside_of_way (fun n hn => hslash n (List.mem_cons_of_mem _ hn)) hp hway
  | .up :: cs, p, q, hslash, hp, hway =>
    h.find?_outside_of_way (fun n hn => hslash n (List.mem_cons_of_mem _ hn)) (h p .directory hp) hway
  | [.name n], p, q, hslash, hp, hway => by
    obtain ⟨-, rfl⟩ := way_last_eq_ok_iff.1 hway
    rw [Place.outside_inside (hslash n List.mem_cons_self)]
    exact hp
  | .name n :: c :: cs, p, q, hslash, _, hway => by
    obtain ⟨-, hfind, hway⟩ := (way_name_eq_ok_iff (List.cons_ne_nil c cs)).1 hway
    exact h.find?_outside_of_way (fun m hm => hslash m (List.mem_cons_of_mem _ hm)) hfind hway

theorem find?_outside_of_locate {path : String} (h : Tree d) (hq : d.locate path = .ok q) :
    d.find? q.outside = some .directory :=
  h.find?_outside_of_way (fun _ hn => (Path.isName_of_mem_components hn).2) (find?_top d)
    (locate_eq_ok_iff.1 hq).2

/-! ### Changes of a tree -/

theorem put_directory (h : Tree d) (hp : d.find? p = none) (hout : d.find? p.outside = some .directory) :
    Tree (d.put p .directory) := by
  have hgrown := Grown.put hp
  refine h.of_grown (fun q => hgrown.kept) fun q e hq hnone => ?_
  by_cases hqp : q = p
  · rw [hqp]
    exact hout
  · rw [find?_put_of_ne d _ hqp, hnone] at hq
    cases hq

theorem makeAll : ∀ (cs : List Path.Component) {d : Disk} {p : Place} (made : Bool), Tree d →
    (∀ n, .name n ∈ cs → '/' ∉ n.toList) → d.find? p = some .directory → Tree (d.makeAll p made cs).2
  | [], _, _, _, h, _, _ => h
  | .root :: cs, d, _, made, h, hslash, _ =>
    makeAll cs made h (fun n hn => hslash n (List.mem_cons_of_mem _ hn)) (find?_top d)
  | .here :: cs, _, _, made, h, hslash, hp =>
    makeAll cs made h (fun n hn => hslash n (List.mem_cons_of_mem _ hn)) hp
  | .up :: cs, _, p, made, h, hslash, hp =>
    makeAll cs made h (fun n hn => hslash n (List.mem_cons_of_mem _ hn)) (h p .directory hp)
  | .name n :: cs, d, p, made, h, hslash, hp => by
    have hrest : ∀ m, .name m ∈ cs → '/' ∉ m.toList := fun m hm => hslash m (List.mem_cons_of_mem _ hm)
    rw [Disk.makeAll]
    split
    · exact h
    · split
      · rename_i hfind
        exact makeAll cs made h hrest hfind
      · exact h
      · rename_i hnone
        have hout : d.find? (p.inside n).outside = some .directory := by
          rw [Place.outside_inside (hslash n List.mem_cons_self), hp]
        exact makeAll cs true (h.put_directory hnone hout) hrest
          (find?_put_self d _ (Place.inside_ne_top n p))

/-- **A tree stays one** under every change, also under one that fails. -/
theorem apply (h : Tree d) (c : Change) : Tree (c.apply d).2 := by
  cases c with
  | makeDirectories path =>
    rw [apply_makeDirectories, makeDirectories]
    split
    · exact h
    · exact makeAll _ false h (fun _ hn => (Path.isName_of_mem_components hn).2) (find?_top d)
  | writeFile path bytes =>
    rw [Change.apply]
    cases hwrite : d.writeFile path bytes with
    | error fault => exact h
    | ok d' =>
      obtain ⟨hdirs, p, n, hp, -, hother⟩ := writeFile_eq_ok hwrite
      refine h.of_grown (fun q => (hdirs q).1) fun q e hq hnone => ?_
      by_cases hqp : q = p
      · exact hqp ▸ h.find?_outside_of_locate hp
      · rw [hother q hqp, hnone] at hq
        cases hq
  | rename source target =>
    rw [Change.apply]
    cases hrename : d.rename source target with
    | error fault => exact h
    | ok d' =>
      obtain ⟨-, hdirs, old, new, content, n, hold, hnew, hfound, -, hother⟩ := rename_eq_ok hrename
      refine h.of_grown (fun q => (hdirs q).1) fun q e hq hnone => ?_
      by_cases hqn : q = new
      · exact hqn ▸ h.find?_outside_of_locate hnew
      · have hqo : q ≠ old := by
          rintro rfl
          rw [hfound] at hnone
          cases hnone
        rw [hother q hqo hqn, hnone] at hq
        cases hq

theorem applyAll (h : Tree d) (cs : List Change) : Tree (Disk.applyAll cs d).2 := by
  induction cs generalizing d with
  | nil => exact h
  | cons c cs ih =>
    have hc := h.apply c
    rw [Disk.applyAll]
    split <;> rename_i hresult <;> rw [hresult] at hc
    · exact ih hc
    · exact hc

theorem withDirectory {name : String} (hname : '/' ∉ name.toList) : Tree (withDirectory name) := by
  intro p e hp
  by_cases hname' : p = Place.top.inside name
  · rw [hname', Place.outside_inside hname]
    exact find?_top _
  · have htop : p = .top := by
      by_contra hne
      have hlookup : (Disk.withDirectory name).find? p = none := by
        rw [find?, if_neg hne]
        simp [Disk.withDirectory, hname']
      rw [hlookup] at hp
      cases hp
    rw [htop]
    exact find?_top _

end Tree

/-! ### Paths without steps outwards -/

namespace Path

/-- The text of a name. -/
def Component.text? : Component → Option String
  | name n => some n
  | _ => none

/-- The names on a path. -/
def names (path : String) : List String := (components path).filterMap Component.text?

theorem notMem_of_mem_names {path n : String} (h : n ∈ names path) : '/' ∉ n.toList := by
  obtain ⟨c, hc, hn⟩ := List.mem_filterMap.1 h
  cases c with
  | name m =>
    obtain rfl : m = n := Option.some.inj hn
    exact (isName_of_mem_components hc).2
  | root | here | up => cases hn

/-- Pieces mean names and steps outwards, so without the steps they mean their names. -/
theorem named_eq_map {pieces : List String} (h : .up ∉ named pieces) :
    named pieces = ((named pieces).filterMap Component.text?).map .name := by
  have hall : ∀ c ∈ named pieces, ∃ n, c = .name n := by
    intro c hc
    obtain ⟨n, -, hn⟩ := List.mem_map.1 hc
    split at hn
    · exact absurd (hn ▸ hc) h
    · exact ⟨n, hn.symm⟩
  generalize named pieces = cs at hall
  induction cs with
  | nil => rfl
  | cons c cs ih =>
    rw [List.forall_mem_cons] at hall
    obtain ⟨⟨n, rfl⟩, hall⟩ := hall
    exact congrArg (Component.name n :: ·) (ih hall)

end Path

open Disk.Path (names)

variable {d d' : Disk} {p q : Place} {path : String}

/-- **Only the names count** on a path without steps outwards. -/
theorem way_components (h : .up ∉ Path.components path) (d : Disk) :
    d.way .top (Path.components path) = d.way .top ((names path).map .name) := by
  have hcases : ∃ pieces, Path.components path = Path.named pieces ∨
      Path.components path = .root :: Path.named pieces ∨
      Path.components path = .here :: Path.named pieces := by
    unfold Path.components
    split
    · exact ⟨_, .inr (.inl rfl)⟩
    · exact ⟨_, .inr (.inr rfl)⟩
    · exact ⟨_, .inl rfl⟩
  obtain ⟨pieces, hcases⟩ := hcases
  have hup : .up ∉ Path.named pieces := by
    rcases hcases with heq | heq | heq <;> rw [heq] at h
    · exact h
    · exact fun hmem => h (List.mem_cons_of_mem _ hmem)
    · exact fun hmem => h (List.mem_cons_of_mem _ hmem)
  have hnamed := congrArg (d.way .top) (Path.named_eq_map hup)
  unfold names
  rcases hcases with heq | heq | heq <;> rw [heq] <;> exact hnamed

theorem eq_within_of_way : ∀ {ns : List String} {p q : Place},
    d.way p (ns.map .name) = .ok q → q = p.within ns
  | [], _, _, h => (Except.ok.inj h).symm
  | [_], _, _, h => (way_last_eq_ok_iff.1 h).2.symm
  | n :: m :: ns, p, q, h => by
    have hway : d.way (p.inside n) ((m :: ns).map .name) = .ok q :=
      ((way_name_eq_ok_iff (List.cons_ne_nil _ _)).1 h).2.2
    have hq := eq_within_of_way hway
    exact hq

/-- **A path leads to the place of its names**, if it leads anywhere. -/
theorem eq_within_of_locate (h : .up ∉ Path.components path) (hq : d.locate path = .ok q) :
    q = Place.top.within (names path) := by
  obtain ⟨-, hway⟩ := locate_eq_ok_iff.1 hq
  rw [way_components h] at hway
  exact eq_within_of_way hway

/-- Paths with the same names lead to the same place. -/
theorem locate_of_names_eq {path' : String} (h : .up ∉ Path.components path)
    (h' : .up ∉ Path.components path') (hnames : names path' = names path) (hq : d.locate path = .ok q)
    (hrefusal : refusal? path' = none) : d.locate path' = .ok q := by
  obtain ⟨-, hway⟩ := locate_eq_ok_iff.1 hq
  rw [way_components h, ← hnames, ← way_components h'] at hway
  exact locate_eq_ok_iff.2 ⟨hrefusal, hway⟩

/-- **On a tree the way to whatever is there is open**, if it is anywhere. -/
theorem Tree.way_of_find? (h : Tree d) : ∀ {ns : List String} {p q : Place} {e : Entry},
    (∀ n ∈ ns, '/' ∉ n.toList) → d'.way p (ns.map .name) = .ok q → d.find? q = some e →
      d.way p (ns.map .name) = .ok q
  | [], _, _, _, _, hway, _ => hway
  | [_], _, _, _, _, hway, _ => way_last_eq_ok_iff.2 (way_last_eq_ok_iff.1 hway)
  | n :: m :: ns, p, q, e, hslash, hway, hq => by
    have hne : (m :: ns).map Path.Component.name ≠ [] := List.cons_ne_nil _ _
    obtain ⟨hn, -, hway⟩ := (way_name_eq_ok_iff hne).1 hway
    rw [List.forall_mem_cons] at hslash
    refine (way_name_eq_ok_iff hne).2 ⟨hn, ?_, h.way_of_find? hslash.2 hway hq⟩
    rw [eq_within_of_way hway] at hq
    exact h.find?_of_within hslash.2 (List.cons_ne_nil m ns) hq

theorem Tree.locate_of_find? (h : Tree d) (hup : .up ∉ Path.components path) {e : Entry}
    (hq : d'.locate path = .ok q) (hfind : d.find? q = some e) : d.locate path = .ok q := by
  obtain ⟨hrefusal, hway⟩ := locate_eq_ok_iff.1 hq
  rw [way_components hup] at hway
  refine locate_eq_ok_iff.2 ⟨hrefusal, ?_⟩
  rw [way_components hup]
  exact h.way_of_find? (fun _ => Path.notMem_of_mem_names) hway hfind

end Provenance.Disk
