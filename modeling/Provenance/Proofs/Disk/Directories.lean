import Provenance.Proofs.Disk.Changes
import Provenance.Proofs.Disk.Components

/-!
# Directories that are made

Before a file is written, the directories on the way to it are made.  Nothing is lost by that, and all that
is new is a directory (`Grown`), also where it breaks off half way.  And if a path leads somewhere, the
directories on the way are all there and none is made (`makeDirectories_parent`).
-/

namespace Provenance.Disk

variable {d d' d'' : Disk}

/-- What was there is still there, and what is new is a directory. -/
structure Grown (d d' : Disk) : Prop where
  kept : ∀ {p e}, d.find? p = some e → d'.find? p = some e
  made : ∀ {p e}, d'.find? p = some e → d.find? p = some e ∨ e = .directory

namespace Grown

theorem refl (d : Disk) : Grown d d where
  kept h := h
  made h := .inl h

theorem trans (h : Grown d d') (h' : Grown d' d'') : Grown d d'' where
  kept hp := h'.kept (h.kept hp)
  made hp := (h'.made hp).elim h.made .inr

/-- A directory is put where nothing is. -/
theorem put {p : Place} (hp : d.find? p = none) : Grown d (d.put p .directory) where
  kept {q e} hq := by
    have hne : q ≠ p := by
      rintro rfl
      rw [hp] at hq
      cases hq
    rwa [find?_put_of_ne d _ hne]
  made {q e} hq := by
    by_cases hqp : q = p
    · subst hqp
      have htop : q ≠ .top := by
        rintro rfl
        rw [find?_top] at hp
        cases hp
      rw [find?_put_self d _ htop] at hq
      exact .inr (Option.some.inj hq).symm
    · rw [find?_put_of_ne d _ hqp] at hq
      exact .inl hq

end Grown

theorem makeAll_grown : ∀ (cs : List Path.Component) (d : Disk) (p : Place) (made : Bool),
    Grown d (d.makeAll p made cs).2
  | [], d, _, _ => .refl d
  | .root :: cs, d, _, made => makeAll_grown cs d .top made
  | .here :: cs, d, p, made => makeAll_grown cs d p made
  | .up :: cs, d, p, made => makeAll_grown cs d p.outside made
  | .name n :: cs, d, p, made => by
    rw [makeAll]
    split
    · exact .refl d
    · split
      · exact makeAll_grown cs d (p.inside n) made
      · exact .refl d
      · rename_i hnone
        exact (Grown.put hnone).trans (makeAll_grown cs _ (p.inside n) true)

/-- **What making directories leaves behind.** -/
theorem makeDirectories_grown (d : Disk) (path : String) : Grown d (d.makeDirectories path).2 := by
  unfold makeDirectories
  split
  · exact .refl d
  · exact makeAll_grown _ d _ _

theorem refusal?_of_makeDirectories {path : String} (h : d.makeDirectories path = (.ok (), d')) :
    refusal? path = none := by
  unfold makeDirectories at h
  split at h
  · cases h
  · rename_i hrefusal
    exact hrefusal

/-- On a way that is open there is nothing to make. -/
theorem makeAll_of_way {n : String} : ∀ (cs : List Path.Component) {p q : Place} (made : Bool),
    d.way p (cs ++ [.name n]) = .ok q → d.makeAll p made cs = (.ok (), d)
  | [], _, _, _, _ => rfl
  | .root :: cs, _, _, made, h => makeAll_of_way cs made h
  | .here :: cs, _, _, made, h => makeAll_of_way cs made h
  | .up :: cs, _, _, made, h => makeAll_of_way cs made h
  | .name k :: cs, p, q, made, h => by
    obtain ⟨hk, hfind, hway⟩ := (way_name_eq_ok_iff (by simp)).1 h
    rw [makeAll, hk, hfind]
    exact makeAll_of_way cs made hway

/-- **Where a path leads somewhere, no directory is made.** -/
theorem makeDirectories_parent {path n : String} {p : Place} (hn : Path.fileName? path = some n)
    (hp : d.locate path = .ok p) (hparent : refusal? (Path.parent path) = none) :
    d.makeDirectories (Path.parent path) = (.ok (), d) := by
  obtain ⟨-, hway⟩ := locate_eq_ok_iff.1 hp
  rw [Path.components_eq_parent hn] at hway
  rw [makeDirectories, hparent]
  exact makeAll_of_way _ false hway

end Provenance.Disk
