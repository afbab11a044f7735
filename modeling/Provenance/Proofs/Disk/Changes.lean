import Provenance.Proofs.Assoc
import Provenance.Proofs.Disk.Paths

/-!
# What a change of a disk leaves behind

Writing a file and moving one change the entries at the places that they name and nothing else, and they
make and take away no directory.  Each has one lemma that says all of this of a change that succeeds
(`writeFile_eq_ok`, `rename_eq_ok`), so nobody has to look at the change again.
-/

namespace Provenance.Disk

variable {d d' : Disk} {p q : Place} {e : Entry}

theorem ne_top_of_find? (h : d.find? p ≠ some .directory) : p ≠ .top := by
  rintro rfl
  exact h (find?_top d)

theorem find?_remove (h : p ≠ .top) : (d.remove p).find? q = if q = p then none else d.find? q := by
  have htop : q = .top → q ≠ p := by
    rintro rfl
    exact h.symm
  unfold find?
  rw [remove, lookup_unassign]
  split_ifs with hq hqp <;> simp_all

/-- A file that goes on without a place is gone from its place. -/
theorem find?_detach (d : Disk) (p q : Place) : (d.detach p).find? q = (d.remove p).find? q := by
  unfold detach
  split <;> rfl

/-- A file put where no directory stands makes and takes away none. -/
theorem SameDirectories.put (hp : d.find? p ≠ some .directory) (he : e ≠ .directory) :
    SameDirectories d (d.put p e) := by
  intro q
  by_cases hq : q = p
  · subst hq
    rw [find?_put_self d e (ne_top_of_find? hp)]
    simp [hp, he]
  · rw [find?_put_of_ne d e hq]

/-- **What writing a file leaves behind.** -/
theorem writeFile_eq_ok {path : String} {bytes : List UInt8} (h : d.writeFile path bytes = .ok d') :
    SameDirectories d d' ∧ ∃ p n, d.locate path = .ok p ∧
      d'.find? p = some (.file (.bytes bytes) n) ∧ ∀ q, q ≠ p → d'.find? q = d.find? q := by
  unfold writeFile at h
  cases hp : d.locate path with
  | error fault => rw [hp] at h; cases h
  | ok p =>
    rw [hp] at h
    change (if d.isDirectory p then _ else _) = _ at h
    split_ifs at h with hdirectory hwants
    obtain rfl := Except.ok.inj h
    have hfind : d.find? p ≠ some .directory := by simpa [isDirectory] using hdirectory
    exact ⟨SameDirectories.put hfind (by simp), p, d.number? p, rfl,
      find?_put_self d _ (ne_top_of_find? hfind), fun q hq => find?_put_of_ne d _ hq⟩

/-- What stands where after a file was moved onto another. -/
theorem find?_move {old new : Place} (hold : old ≠ .top) (hnew : new ≠ .top) :
    (((d.detach new).remove old).put new e).find? q =
      if q = new then some e else if q = old then none else d.find? q := by
  by_cases hqn : q = new
  · rw [hqn, find?_put_self _ e hnew, if_pos rfl]
  · rw [find?_put_of_ne _ e hqn, find?_remove hold, find?_detach, find?_remove hnew, if_neg hqn,
      if_neg hqn]

/-- A file moved onto a place where no directory stands makes and takes away none. -/
theorem SameDirectories.move {old new : Place} (hold : d.find? old ≠ some .directory)
    (hnew : d.find? new ≠ some .directory) (he : e ≠ .directory) :
    SameDirectories d (((d.detach new).remove old).put new e) := by
  intro q
  rw [find?_move (ne_top_of_find? hold) (ne_top_of_find? hnew)]
  split_ifs with hqn hqo
  · simp [hqn, hnew, he]
  · simp [hqo, hold]
  · rfl

/-- **What moving a file leaves behind.** -/
theorem rename_eq_ok {source target : String} (h : d.rename source target = .ok d') :
    IsFile target ∧ SameDirectories d d' ∧ ∃ old new content n, d.locate source = .ok old ∧
      d.locate target = .ok new ∧ d.find? old = some (.file content n) ∧
      d'.find? new = some (.file content n) ∧
      ∀ q, q ≠ old → q ≠ new → d'.find? q = d.find? q := by
  unfold rename at h
  cases hold : d.locate source with
  | error fault => rw [hold] at h; cases h
  | ok old =>
  cases hnew : d.locate target with
  | error fault => rw [hold, hnew] at h; cases h
  | ok new =>
  rw [hold, hnew] at h
  change (if endsInDots source || endsInDots target then _ else _) = _ at h
  cases he : d.find? old with
  | none =>
    simp only [he] at h
    split_ifs at h
  | some e =>
  cases e with
  | directory =>
    simp only [he] at h
    split_ifs at h
  | file content number =>
  simp only [he] at h
  split_ifs at h with hdots hwants hdirectory
  obtain rfl := Except.ok.inj h
  have hfile : IsFile target := by
    simp only [Bool.or_eq_true, not_or, Bool.not_eq_true] at hdots hwants
    exact ⟨hwants, hdots.2⟩
  have htarget : d.find? new ≠ some .directory := by simpa [isDirectory] using hdirectory
  have hsource : d.find? old ≠ some .directory := by simp [he]
  refine ⟨hfile, .move hsource htarget (by simp), old, new, _, _, rfl, rfl, he,
    find?_put_self _ _ (ne_top_of_find? htarget), fun q hqo hqn => ?_⟩
  rw [find?_move (ne_top_of_find? hsource) (ne_top_of_find? htarget), if_neg hqn, if_neg hqo]

/-- **What is read of a file.** -/
theorem read_of_find? {path : String} {content : Content} {n : Option Nat}
    (hwants : wantsDirectory path = false) (hp : d.locate path = .ok p)
    (hfind : d.find? p = some (.file content n)) : d.read path = .ok content.toBytes := by
  have hentry : d.entry? path = .ok (some (.file content n)) := by
    unfold entry?
    rw [hp]
    refine (pure_bind p _).trans ?_
    rw [hfind]
    simp only [hwants]
    rfl
  rw [read, hentry]
  rfl

/-- What is read is a matter of where the path leads and what stands there. -/
theorem read_congr {path : String} (hlocate : d.locate path = d'.locate path)
    (hfind : ∀ p, d.locate path = .ok p → d.find? p = d'.find? p) : d.read path = d'.read path := by
  unfold read entry?
  rw [← hlocate]
  cases hp : d.locate path with
  | error fault => rfl
  | ok p =>
    refine congrArg (· >>= _) ((pure_bind p _).trans (Eq.trans ?_ (pure_bind p _).symm))
    rw [hfind p hp]

/-- Whether there is a file at a path. -/
theorem isFile_iff {path : String} : d.isFile path = true ↔
    ∃ p content n, d.locate path = .ok p ∧ d.find? p = some (.file content n) ∧
      wantsDirectory path = false := by
  unfold isFile entry?
  cases d.locate path with
  | error fault => simp [bind, Except.bind]
  | ok p =>
    cases hfind : d.find? p with
    | none => simp [bind, Except.bind, hfind, pure, Except.pure]
    | some e =>
      cases e with
      | directory => simp [bind, Except.bind, hfind, pure, Except.pure]
      | file content n =>
        cases hwants : wantsDirectory path <;> simp [bind, Except.bind, hfind, pure, Except.pure]

/-- Only a file can be read. -/
theorem exists_read_eq_error {path : String} (h : d.isFile path = false) :
    ∃ fault, d.read path = .error fault := by
  unfold isFile at h
  unfold read
  cases hentry : d.entry? path with
  | error fault => exact ⟨fault, rfl⟩
  | ok e =>
    rw [hentry] at h
    match e with
    | none => exact ⟨_, rfl⟩
    | some .directory => exact ⟨_, rfl⟩
    | some (.file _ _) => cases h

/-! ### Paths where a file can stand -/

/-- A path that leads to a place without a directory. -/
def Open (d : Disk) (path : String) : Prop :=
  ∃ p, d.locate path = .ok p ∧ d.find? p ≠ some .directory

/-- On disks with the same directories a file can stand at the same paths. -/
theorem Open.congr {path : String} (h : SameDirectories d d') (hopen : d.Open path) : d'.Open path := by
  obtain ⟨p, hp, hfree⟩ := hopen
  exact ⟨p, h.locate_eq_ok hp, fun hfind => hfree ((h p).2 hfind)⟩

/-- **A file is written** where one can stand. -/
theorem exists_writeFile {path : String} (hp : d.locate path = .ok p) (hfree : d.find? p ≠ some .directory)
    (hwants : wantsDirectory path = false) (bytes : List UInt8) :
    ∃ d', d.writeFile path bytes = .ok d' := by
  have hdirectory : d.isDirectory p = false := by simpa [isDirectory] using hfree
  refine ⟨d.put p (.file (.bytes bytes) (d.number? p)), ?_⟩
  unfold writeFile
  rw [hp]
  change (if d.isDirectory p then _ else if wantsDirectory path then _ else _) = _
  rw [hdirectory, hwants]
  rfl

/-- **A file is moved** to where one can stand. -/
theorem exists_rename {source target : String} {old new : Place} {content : Content} {n : Option Nat}
    (hsource : IsFile source) (htarget : IsFile target) (hold : d.locate source = .ok old)
    (hnew : d.locate target = .ok new) (hfind : d.find? old = some (.file content n))
    (hfree : d.find? new ≠ some .directory) : ∃ d', d.rename source target = .ok d' := by
  have hdirectory : d.isDirectory new = false := by simpa [isDirectory] using hfree
  refine ⟨((d.detach new).remove old).put new (.file content n), ?_⟩
  unfold rename
  rw [hold, hnew]
  refine (pure_bind old _).trans ((pure_bind new _).trans ?_)
  rw [hsource.notDots, htarget.notDots, hfind, hdirectory, htarget.notDirectory]
  rfl

/-! ### One change after the other -/

theorem applyAll_cons_eq_ok {c : Change} {cs : List Change} (h : applyAll (c :: cs) d = (.ok (), d')) :
    ∃ d'', c.apply d = (.ok (), d'') ∧ applyAll cs d'' = (.ok (), d') := by
  rw [applyAll] at h
  split at h
  · rename_i d'' hc
    exact ⟨d'', hc, h⟩
  · cases h

theorem applyAll_append_eq_ok {cs cs' : List Change} (h : applyAll (cs ++ cs') d = (.ok (), d')) :
    ∃ d'', applyAll cs d = (.ok (), d'') ∧ applyAll cs' d'' = (.ok (), d') := by
  induction cs generalizing d with
  | nil => exact ⟨d, rfl, h⟩
  | cons c cs ih =>
    obtain ⟨d₁, hc, h⟩ := applyAll_cons_eq_ok h
    obtain ⟨d₂, hcs, h⟩ := ih h
    refine ⟨d₂, ?_, h⟩
    rw [applyAll, hc]
    exact hcs

theorem apply_makeDirectories (d : Disk) (path : String) :
    (Change.makeDirectories path).apply d = d.makeDirectories path := rfl

theorem apply_writeFile_eq_ok_iff {path : String} {bytes : List UInt8} :
    (Change.writeFile path bytes).apply d = (.ok (), d') ↔ d.writeFile path bytes = .ok d' := by
  unfold Change.apply
  cases hw : d.writeFile path bytes <;> simp [hw]

theorem apply_rename_eq_ok_iff {source target : String} :
    (Change.rename source target).apply d = (.ok (), d') ↔ d.rename source target = .ok d' := by
  unfold Change.apply
  cases hr : d.rename source target <;> simp [hr]

/-- The paths of the files that a change names. -/
def Change.files : Change → List String
  | makeDirectories _ => []
  | writeFile path _ => [path]
  | rename source target => [source, target]

/-- **What a change of files leaves behind**: it could only happen where files can stand, and it changes
nothing elsewhere. -/
theorem apply_eq_ok {c : Change} (hc : c.files ≠ []) (h : c.apply d = (.ok (), d')) :
    SameDirectories d d' ∧ (∀ f ∈ c.files, d.Open f) ∧
      ∀ q, (∀ f ∈ c.files, d.locate f ≠ .ok q) → d'.find? q = d.find? q := by
  cases c with
  | makeDirectories path => exact absurd rfl hc
  | writeFile path bytes =>
    obtain ⟨hdirs, p, n, hp, hfind, hother⟩ := writeFile_eq_ok (apply_writeFile_eq_ok_iff.1 h)
    have hopen : d.Open path := ⟨p, hp, fun hdirectory => by
      rw [hdirs, hfind] at hdirectory
      cases hdirectory⟩
    simp only [Change.files, List.forall_mem_singleton]
    exact ⟨hdirs, hopen, fun q hq => hother q fun heq => hq (by rw [hp, heq])⟩
  | rename source target =>
    obtain ⟨-, hdirs, old, new, content, n, hold, hnew, hfound, hfind, hother⟩ :=
      rename_eq_ok (apply_rename_eq_ok_iff.1 h)
    have hsource : d.Open source := ⟨old, hold, by simp [hfound]⟩
    have htarget : d.Open target := ⟨new, hnew, fun hdirectory => by
      rw [hdirs, hfind] at hdirectory
      cases hdirectory⟩
    simp only [Change.files, List.forall_mem_cons, List.not_mem_nil, false_implies, implies_true,
      and_true]
    refine ⟨hdirs, ⟨hsource, htarget⟩, fun q hq => hother q (fun heq => hq.1 ?_) fun heq => hq.2 ?_⟩
    · rw [hold, heq]
    · rw [hnew, heq]

/-- **What a run of such changes leaves behind.** -/
theorem applyAll_eq_ok {cs : List Change} (hcs : ∀ c ∈ cs, c.files ≠ [])
    (h : applyAll cs d = (.ok (), d')) :
    SameDirectories d d' ∧ (∀ c ∈ cs, ∀ f ∈ c.files, d.Open f) ∧
      ∀ q, (∀ c ∈ cs, ∀ f ∈ c.files, d.locate f ≠ .ok q) → d'.find? q = d.find? q := by
  induction cs generalizing d with
  | nil =>
    obtain rfl : d = d' := congrArg Prod.snd h
    exact ⟨fun _ => Iff.rfl, nofun, fun _ _ => rfl⟩
  | cons c cs ih =>
    obtain ⟨d₁, hc, h⟩ := applyAll_cons_eq_ok h
    rw [List.forall_mem_cons] at hcs
    obtain ⟨hdirs, hopen, hother⟩ := apply_eq_ok hcs.1 hc
    obtain ⟨hdirs', hopen', hother'⟩ := ih hcs.2 h
    refine ⟨hdirs.trans hdirs', List.forall_mem_cons.2 ⟨hopen, fun c' hc' f hf => ?_⟩, fun q hq => ?_⟩
    · exact (hopen' c' hc' f hf).congr hdirs.symm
    · rw [List.forall_mem_cons] at hq
      rw [hother' q fun c' hc' f hf hlocate => hq.2 c' hc' f hf (hdirs.symm.locate_eq_ok hlocate),
        hother q hq.1]

end Provenance.Disk
