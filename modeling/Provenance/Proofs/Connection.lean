import Provenance.Proofs.Disk.Changes
import Provenance.Proofs.Operations
import Provenance.Store.Connection.Storage

/-!
# A connection to a file that is left alone

A connection looks at more than the table: at a journal and a log beside its file, at the users of the log,
at the count of changes.  As long as nobody else touches any of these it finds nothing to see to
(`Connection.Settled`), and then it answers every operation by the table in its file, which is changed as
a table in memory would be (`Connection.simulates_table`).

A file that the connection has made itself is left alone at first (`Connection.settled_of_open`).
-/

namespace Provenance

namespace Disk

variable {d : Disk} {n : ℕ} {p q : Place} {content content' : Content}

/-! ### Where the file with a number stands -/

/-- A file that is put at a place with a number that no other place has stands there. -/
theorem placed?_put (h : ∀ r ∈ d.placed? n, r.1 = p) (content : Content) :
    (d.put p (.file content (some n))).placed? n = some (p, content) := by
  unfold placed? put at *
  revert h
  generalize d.entries = entries
  induction entries with
  | nil => simp [assign]
  | cons e rest ih =>
    obtain ⟨q, entry⟩ := e
    rw [assign]
    by_cases hq : q = p
    · simp [hq]
    · rw [if_neg hq]
      cases entry with
      | directory => simpa using ih
      | file c m =>
        by_cases hm : m = some n
        · simp [hm, hq]
        · simpa [hm] using ih

/-- A file without a number changes nothing about a number that nothing has. -/
theorem placed?_put_unnumbered (h : d.placed? n = none) (p : Place) (content : Content) :
    (d.put p (.file content none)).placed? n = none := by
  refine List.findSome?_eq_none_iff.2 fun e he => ?_
  rcases mem_assign he with rfl | he
  · rfl
  · exact List.findSome?_eq_none_iff.1 h e he

theorem logs_detach (d : Disk) (q : Place) : (d.detach q).logs = d.logs := by
  unfold detach
  split <;> rfl

theorem entries_detach (d : Disk) (q : Place) : (d.detach q).entries = unassign q d.entries := by
  unfold detach
  split <;> rfl

/-- A file stays where it stands when another place is cleared. -/
theorem placed?_detach (h : d.placed? n = some (p, content)) (hq : q ≠ p) :
    (d.detach q).placed? n = some (p, content) := by
  unfold placed? at *
  rw [entries_detach]
  obtain ⟨before, ⟨r, entry⟩, rest, hentries, hfound, hbefore⟩ := List.findSome?_eq_some_iff.1 h
  have hr : r ≠ q := by
    rintro rfl
    cases entry with
    | directory => cases hfound
    | file c m =>
      simp only [Option.ite_none_right_eq_some, Option.some.injEq, Prod.mk.injEq] at hfound
      exact hq hfound.2.1
  refine List.findSome?_eq_some_iff.2 ⟨unassign q before, (r, entry), unassign q rest, ?_, hfound,
    fun e he => hbefore e (List.mem_of_mem_filter he)⟩
  simp [hentries, unassign, hr]

end Disk

namespace Connection

open Disk

variable {c : Connection} {d : Disk} {i : Image}

/-! ### Nothing to see to -/

/-- Nobody else touches the file of a connection: it stands in its place with a table in it, nothing is left
beside it that would have to be seen to, nobody uses a log, and what the connection remembers of the file as
it stands is right. -/
structure Settled (c : Connection) (d : Disk) (i : Image) : Prop where
  logged : c.logged = false
  place : c.place ≠ .top
  placed : d.placed? c.number = some (c.place, .image i)
  number : d.number? c.place = some c.number
  journal : leftover d (journal c.place) = .nothing
  log : leftover d (log c.place) = .nothing
  unlocked : isLocked c.number d = false
  memory : c.changes = i.changes → c.memory = .nothing ∨ c.memory = .rows i

/-- What is remembered of a settled file may change to the image of it. -/
theorem Settled.remember (h : Settled c d i) {changes : ℕ} {memory : Recollection}
    (hmemory : memory = .nothing ∨ memory = .rows i) :
    Settled { c with changes, memory } d i where
  logged := h.logged
  place := h.place
  placed := h.placed
  number := h.number
  journal := h.journal
  log := h.log
  unlocked := h.unlocked
  memory _ := hmemory

/-- What a connection takes a settled file to hold is the table as it stands. -/
theorem Settled.recollect (h : Settled c d i) :
    ∃ c', c.recollect (.image i) = (.ok i, c') ∧ Settled c' d i := by
  by_cases hchanges : c.changes = i.changes
  · refine ⟨c, ?_, h⟩
    rcases h.memory hchanges with hm | hm
    all_goals rw [Connection.recollect, if_neg (not_not.2 hchanges), hm]
  · exact ⟨_, by rw [Connection.recollect, if_pos hchanges], h.remember (.inl rfl)⟩

/-- **An operation on a settled file finds the table as it stands**, and leaves the disk as it is. -/
theorem Settled.view (h : Settled c d i) : ∃ c', c.view d = (.ok i, c', d) ∧ Settled c' d i := by
  have hheld : d.held c.number = .image i := by rw [Disk.held, h.placed]
  have henter : c.enter d = (.ok (.image i), c, d) := by
    simp only [enter, h.logged, hheld, clearJournal, h.journal, findLog, h.log, Bool.false_eq_true, if_false]
  obtain ⟨c', hfound, hc'⟩ := h.recollect
  refine ⟨c', ?_, hc'⟩
  rw [Connection.view, henter]
  simp only [h.logged, Bool.false_eq_true, if_false, hfound]

/-! ### The operations -/

/-- Reading goes by the table and leaves everything settled. -/
theorem Settled.read (h : Settled c d i) (a : Asset) : ∃ c' d', c.read a d = (Database.read a i.rows, c', d') ∧
    Settled c' d' i := by
  obtain ⟨c', hview, hc'⟩ := h.view
  refine ⟨_, d, by rw [Connection.read, hview], ?_⟩
  split
  · exact hc'.remember (.inr rfl)
  · exact hc'

/-- Whether there is a row goes by the table. -/
theorem Settled.holds (h : Settled c d i) (a : Asset) :
    ∃ c' d', c.holds a d = (.ok (Database.holds a i.rows), c', d') ∧ Settled c' d' i := by
  obtain ⟨c', hview, hc'⟩ := h.view
  exact ⟨c', d, by rw [Connection.holds, hview], hc'⟩

theorem journal_ne (p : Place) : Connection.journal p ≠ p := Place.beside_ne_self (by decide) p

theorem log_ne (p : Place) : Connection.log p ≠ p := Place.beside_ne_self (by decide) p

theorem log_ne_journal (p : Place) : Connection.log p ≠ Connection.journal p :=
  Place.beside_ne (by decide) p

theorem leftover_congr {d d' : Disk} {p : Place} (h : d'.find? p = d.find? p) :
    leftover d' p = leftover d p := by
  rw [leftover, leftover, h]

theorem journal_ne_top (p : Place) : Connection.journal p ≠ .top := by
  intro he
  have htext : p.text ++ "-journal" = "" := congrArg Place.text he
  simp at htext

/-- A table that is put into the file in its place, after the journal was cleared away, is settled. -/
theorem settled_writeHeld {p : Place} {n : ℕ} {content : Content} (hp : p ≠ .top)
    (hplaced : d.placed? n = some (p, content)) (hlog : leftover d (Connection.log p) = .nothing)
    (hlocked : isLocked n d = false) (i : Image) :
    Settled ⟨p, n, i.changes, .rows i, false⟩ ((d.detach (Connection.journal p)).writeHeld n (.image i)) i := by
  have hcleared := placed?_detach hplaced (journal_ne p)
  have hwritten : (d.detach (Connection.journal p)).writeHeld n (.image i) =
      (d.detach (Connection.journal p)).put p (.file (.image i) (some n)) := by
    simp only [writeHeld, hcleared]
  have hfind : ∀ q, q ≠ p → ((d.detach (Connection.journal p)).put p (.file (.image i) (some n))).find? q =
      if q = Connection.journal p then none else d.find? q := fun q hq => by
    rw [find?_put_of_ne _ _ hq, find?_detach, find?_remove (journal_ne_top p)]
  rw [hwritten]
  refine ⟨rfl, hp, placed?_put (by simp [hcleared]) _, ?_, ?_, ?_, ?_, fun _ => .inr rfl⟩
  · rw [number?, find?_put_self _ _ hp]
  · rw [leftover, hfind _ (journal_ne p), if_pos rfl]
  · rw [← hlog]
    exact leftover_congr (by rw [hfind _ (log_ne p), if_neg (log_ne_journal p)])
  · rw [← hlocked, isLocked, isLocked, usedLog, usedLog, put, logs_detach]

/-- **Writing changes the table as it would be changed in memory**, and leaves everything settled. -/
theorem Settled.write (h : Settled c d i) (a : Asset) (data : Dataset) :
    ∃ c' d' n, c.write a data d = (.ok (), c', d') ∧ Settled c' d' ⟨Database.write a data i.rows, n⟩ := by
  obtain ⟨⟨p, number, changes, memory, logged⟩, hview, hc'⟩ := h.view
  obtain rfl : logged = false := hc'.logged
  have hplace : isInPlace ⟨p, number, changes, memory, false⟩ d = true := by
    simp [isInPlace, hc'.number]
  have hprepare : prepare ⟨p, number, changes, memory, false⟩ d =
      (.ok (), d.detach (Connection.journal p)) := by
    simp [prepare, hplace, hc'.unlocked]
  exact ⟨_, _, i.changes + 1, by rw [Connection.write, hview]; dsimp only; rw [hprepare]; rfl,
    settled_writeHeld hc'.place hc'.placed hc'.log hc'.unlocked _⟩

/-- **A connection to a settled file answers each operation as the table in it does.** -/
theorem simulates_table : store.Simulates Database.store (fun _ => True)
    fun s rows => ∃ i, Settled s.1 s.2 i ∧ i.rows = rows := by
  rintro op ⟨c, d⟩ rows - ⟨i, h, rfl⟩
  cases op with
  | read a =>
    obtain ⟨c', d', hread, hnext⟩ := h.read a
    simp only [Store.perform, store, hread]
    exact ⟨rfl, i, hnext, rfl⟩
  | write a data =>
    obtain ⟨c', d', n, hwrite, hnext⟩ := h.write a data
    simp only [Store.perform, store, hwrite]
    exact ⟨rfl, _, hnext, rfl⟩
  | holds a =>
    obtain ⟨c', d', hholds, hnext⟩ := h.holds a
    simp only [Store.perform, store, hholds]
    exact ⟨rfl, i, hnext, rfl⟩

/-! ### A file that the connection has made -/

theorem log_ne_top (p : Place) : Connection.log p ≠ .top := by
  intro he
  have htext : p.text ++ "-wal" = "" := congrArg Place.text he
  simp at htext

theorem leftover_detach {q : Place} (hq : q ≠ .top) : leftover (d.detach q) q = .nothing := by
  rw [leftover, find?_detach, find?_remove hq, if_pos rfl]

/-- Turning to a blank file that is not in use yet leaves it where it stands and no log beside it. -/
theorem enter_blank {p : Place} {n : ℕ} {content : Content} {d' : Disk}
    (hplaced : d.placed? n = some (p, .bytes []))
    (h : enter ⟨p, n, 0, .nothing, false⟩ d = (.ok content, c, d')) :
    content = .bytes [] ∧ c = ⟨p, n, 0, .nothing, false⟩ ∧ d'.placed? n = some (p, .bytes []) ∧
      leftover d' (Connection.log p) = .nothing := by
  have hheld : d.held n = .bytes [] := by rw [Disk.held, hplaced]
  obtain ⟨d₁, hjournal, hplaced₁⟩ : ∃ d₁, clearJournal p n true d = (.ok false, d₁) ∧
      d₁.placed? n = some (p, .bytes []) := by
    cases hleft : leftover d (Connection.journal p) with
    | nothing => exact ⟨d, by simp [clearJournal, hleft], hplaced⟩
    | directory => exact ⟨d, by simp [clearJournal, hleft], hplaced⟩
    | file first =>
      exact ⟨_, by simp [clearJournal, hleft], placed?_detach hplaced (journal_ne p)⟩
  have hblank : isBlank (.bytes []) = true := rfl
  simp only [enter, hheld, hblank, hjournal, Bool.false_eq_true, if_false] at h
  cases hleft : leftover d₁ (Connection.log p) with
  | nothing =>
    simp only [findLog, hleft, Prod.mk.injEq, Except.ok.injEq] at h
    obtain ⟨rfl, rfl, rfl⟩ := h
    exact ⟨rfl, rfl, hplaced₁, hleft⟩
  | directory => simp [findLog, hleft] at h
  | file first =>
    simp only [findLog, hleft, if_true, Prod.mk.injEq, Except.ok.injEq] at h
    obtain ⟨rfl, rfl, rfl⟩ := h
    exact ⟨rfl, rfl, placed?_detach hplaced₁ (log_ne p), leftover_detach (log_ne_top p)⟩

/-- **A file that opening has made is settled, and its table is empty.**  It was not there before, and no
file has the number that is given out next. -/
theorem settled_of_open {path : String} {p : Place} {d' : Disk} (hplace : place? path d = some p)
    (hnone : d.find? p = none) (hnew : d.placed? d.numbered = none)
    (hopen : open? path d = (some c, d')) : Settled c d' ⟨[], 1⟩ := by
  have hp : p ≠ .top := by
    rintro rfl
    simp at hnone
  have hput : (d.put p (.file (.bytes []) none)).find? p = some (.file (.bytes []) none) :=
    find?_put_self d _ hp
  have hplaced : ((d.put p (.file (.bytes []) none)).hold p).2.placed? d.numbered =
      some (p, .bytes []) := by
    rw [hold, hput]
    exact placed?_put (by simp [placed?_put_unnumbered hnew p (.bytes [])]) _
  have hnumber : ((d.put p (.file (.bytes []) none)).hold p).1 = d.numbered := by
    rw [hold, hput]
    rfl
  simp only [open?, hplace, hnone, Option.isSome_none, Bool.false_eq_true, if_false, hnumber] at hopen
  generalize ((d.put p (.file (.bytes []) none)).hold p).2 = d₁ at hopen hplaced
  split at hopen
  · cases hopen
  · rename_i hfound
    cases (enter_blank hplaced hfound).1
  · rename_i content c₁ d₂ _ hfound
    obtain ⟨rfl, rfl, hplaced₂, hlog⟩ := enter_blank hplaced hfound
    split_ifs at hopen with hrefused hlocked
    · cases hopen
    · cases hopen
    · obtain ⟨hc, rfl⟩ := Prod.mk.inj hopen
      obtain rfl := Option.some.inj hc
      exact settled_writeHeld hp hplaced₂ hlog (by simpa using hlocked) ⟨[], 1⟩

/-- A new file in a directory. -/
theorem exists_settled : ∃ c d, open? "data/base.db" (Disk.withDirectory "data") = (some c, d) ∧
    Settled c d ⟨[], 1⟩ := by
  have hplace : place? "data/base.db" (Disk.withDirectory "data") = some ⟨"/data/base.db"⟩ := by
    decide +kernel
  obtain ⟨c, d, hopen⟩ : ∃ c d, open? "data/base.db" (Disk.withDirectory "data") = (some c, d) :=
    ⟨_, _, rfl⟩
  exact ⟨c, d, hopen, settled_of_open hplace (by decide +kernel) (by decide +kernel) hopen⟩

end Connection

end Provenance
