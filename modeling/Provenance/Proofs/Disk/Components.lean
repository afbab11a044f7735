import Provenance.Proofs.Disk.Paths

/-!
# The components of joined and of changed paths

What a path means can be read off piece by piece: the first piece says whether the path begins at the top,
and every other piece is a name, or a step outwards, or nothing (`components_eq`).  So writing a piece
behind a path adds what the piece means (`components_append_slash`, `components_slash_append`), and joining
two paths joins their components (`components_join`).

Taking the last name off works on the characters of the path instead, from its end.  The slashes and the
dots that it drops on the way mean nothing (`components_trimEnd`), and behind them stands the last name, so
the path means what its parent means, and the name (`components_eq_parent`).  A path with another last name
differs in this name and in nothing else (`components_withFileName`).
-/

namespace Provenance.Text

/-- No piece has a separator. -/
theorem not_of_mem_pieces {p : Char → Bool} {cs w : List Char} {c : Char} (hw : w ∈ pieces p cs)
    (hc : c ∈ w) : p c = false := by
  fun_induction pieces p cs generalizing w with
  | case1 =>
    obtain rfl := List.mem_singleton.1 hw
    exact absurd hc List.not_mem_nil
  | case2 _ _ _ ih =>
    rcases List.mem_cons.1 hw with rfl | hw
    · exact absurd hc List.not_mem_nil
    · exact ih hw hc
  | case3 rest _ _ hnone => exact absurd hnone (pieces_ne_nil p _)
  | case4 b rest hb v ws hpieces ih =>
    rw [hpieces] at ih
    rcases List.mem_cons.1 hw with rfl | hw
    · rcases List.mem_cons.1 hc with rfl | hc
      · simpa using hb
      · exact ih List.mem_cons_self hc
    · exact ih (List.mem_cons_of_mem v hw) hc

end Provenance.Text

namespace Provenance.Disk.Path

/-! ### Pieces -/

theorem named_append (as bs : List String) : named (as ++ bs) = named as ++ named bs := by
  rw [named, List.filter_append, List.map_append]
  rfl

theorem named_singleton {n : String} (h : IsName n) : named [n] = [.name n] := by
  have hnamed := named_append_singleton h []
  rwa [List.nil_append] at hnamed

theorem leading_append {as : List String} (h : as ≠ []) (bs : List String) :
    leading (as ++ bs) = leading as ++ named bs := by
  obtain ⟨a, as, rfl⟩ := List.exists_cons_of_ne_nil h
  by_cases hroot : a = ""
  · subst hroot
    exact congrArg (Component.root :: ·) (named_append as bs)
  · by_cases hhere : a = "."
    · subst hhere
      exact congrArg (Component.here :: ·) (named_append as bs)
    · rw [List.cons_append, leading_cons hroot hhere, leading_cons hroot hhere, ← List.cons_append,
        named_append]

theorem splitAll_ne_nil (path : String) : Text.splitAll '/' path ≠ [] := by
  rw [Text.splitAll, ne_eq, List.map_eq_nil_iff]
  exact Text.pieces_ne_nil _ _

/-- Only the empty path has one piece that is empty. -/
theorem splitAll_ne_singleton {path : String} (h : path ≠ "") : Text.splitAll '/' path ≠ [""] := by
  intro hsplit
  by_cases hslash : '/' ∈ path.toList
  · obtain ⟨front, back, hpath⟩ := List.append_of_mem hslash
    have hlength := congrArg List.length hsplit
    rw [Text.splitAll, hpath, Text.pieces_append_cons (p := (· == '/')) rfl, List.length_map,
      List.length_append] at hlength
    have hfront := List.length_pos_iff.2 (Text.pieces_ne_nil (· == '/') front)
    have hback := List.length_pos_iff.2 (Text.pieces_ne_nil (· == '/') back)
    simp only [List.length_singleton] at hlength
    omega
  · rw [Text.splitAll_of_notMem hslash] at hsplit
    exact h (List.cons.inj hsplit).1

/-- **What a path means**, by its pieces. -/
theorem components_eq {path : String} (h : path ≠ "") :
    components path = leading (Text.splitAll '/' path) := by
  have hpieces := splitAll_ne_singleton h
  unfold components leading
  generalize Text.splitAll '/' path = pieces at hpieces
  match pieces with
  | [] => rfl
  | [a] =>
    have ha : a ≠ "" := fun heq => hpieces (heq ▸ rfl)
    split <;> simp_all
  | a :: b :: rest => split <;> simp_all

theorem components_of_isName {n : String} (h : IsName n) (hslash : '/' ∉ n.toList) :
    components n = [.name n] := by
  have hsplit : Text.splitAll '/' n = [] ++ [n] := Text.splitAll_of_notMem hslash
  exact components_of_splitAll h hsplit

theorem notMem_of_mem_splitAll {path n : String} (h : n ∈ Text.splitAll '/' path) : '/' ∉ n.toList := by
  obtain ⟨cs, hcs, rfl⟩ := List.mem_map.1 h
  rw [String.toList_ofList]
  exact fun hslash => absurd (Text.not_of_mem_pieces hcs hslash) (by simp)

/-- The names on a path are names. -/
theorem isName_of_mem_components {path n : String} (h : .name n ∈ components path) :
    IsName n ∧ '/' ∉ n.toList := by
  have hnamed : ∀ pieces : List String, .name n ∈ named pieces → IsName n ∧ n ∈ pieces := by
    intro pieces hmem
    obtain ⟨m, hm, hname⟩ := List.mem_map.1 hmem
    obtain ⟨hm, hkept⟩ := List.mem_filter.1 hm
    split at hname
    · exact absurd hname (by simp)
    · rename_i hdots
      obtain rfl := Component.name.inj hname
      have hkept : m ≠ "" ∧ m ≠ "." := by simpa using hkept
      exact ⟨⟨hkept.1, hkept.2, hdots⟩, hm⟩
  suffices hmem : IsName n ∧ n ∈ Text.splitAll '/' path by
    exact ⟨hmem.1, notMem_of_mem_splitAll hmem.2⟩
  unfold components at h
  split at h
  · rename_i rest hsplit
    obtain ⟨hn, hmem⟩ := hnamed _ (List.mem_of_ne_of_mem (by simp) h)
    exact ⟨hn, by rw [hsplit]; exact List.mem_cons_of_mem _ hmem⟩
  · rename_i rest hsplit
    obtain ⟨hn, hmem⟩ := hnamed _ (List.mem_of_ne_of_mem (by simp) h)
    exact ⟨hn, by rw [hsplit]; exact List.mem_cons_of_mem _ hmem⟩
  · exact hnamed _ h

/-! ### Joining -/

theorem components_append_slash {s : String} (h : s ≠ "") (t : String) :
    components (s ++ "/" ++ t) = components s ++ named (Text.splitAll '/' t) := by
  have hne : s ++ "/" ++ t ≠ "" := by simp
  rw [components_eq hne, Text.splitAll_append_sep rfl, leading_append (splitAll_ne_nil s), components_eq h]

/-- A text that ends in a slash is another one with a slash behind it. -/
theorem exists_eq_append_slash {s : String} (h : ['/'] <:+ s.toList) : ∃ q : String, s = q ++ "/" := by
  obtain ⟨cs, hcs⟩ := h
  refine ⟨String.ofList cs, String.toList_inj.1 ?_⟩
  rw [← hcs]
  simp

/-- A slash at the end means nothing. -/
theorem components_slash {q : String} (hq : q ≠ "") : components (q ++ "/") = components q := by
  have happend := components_append_slash hq ""
  have hnone : named (Text.splitAll '/' "") = [] := rfl
  rwa [String.append_empty, hnone, List.append_nil] at happend

theorem components_slash_append {s : String} (h : ['/'] <:+ s.toList) (t : String) :
    components (s ++ t) = components s ++ named (Text.splitAll '/' t) := by
  obtain ⟨q, rfl⟩ := exists_eq_append_slash h
  by_cases hq : q = ""
  · subst hq
    have hne : "" ++ "/" ++ t ≠ "" := by simp
    rw [components_eq hne, Text.splitAll_append_sep rfl]
    rfl
  · rw [components_append_slash hq, components_slash hq]

theorem endsWith_slash_iff (s : String) : s.endsWith "/" = true ↔ ['/'] <:+ s.toList := by
  rw [String.endsWith, String.Slice.endsWith_string_iff]
  simp

theorem startsWith_slash_iff (s : String) : s.startsWith "/" = true ↔ ['/'] <+: s.toList := by
  rw [String.startsWith, String.Slice.startsWith_string_iff]
  simp

/-- **Joining two paths joins their components**, if the second one does not begin at the top. -/
theorem components_join {base path : String} (hbase : base ≠ "") (hpath : ¬ ['/'] <+: path.toList) :
    components (join base path) = components base ++ named (Text.splitAll '/' path) := by
  have hstart : path.startsWith "/" = false := by
    rw [← Bool.not_eq_true, startsWith_slash_iff]
    exact hpath
  have hempty : base.isEmpty = false := by simpa using hbase
  unfold join
  rw [hstart, hempty]
  simp only [Bool.false_eq_true, if_false, false_or]
  split
  · rename_i hend
    exact components_slash_append ((endsWith_slash_iff base).1 hend) path
  · exact components_append_slash hbase path

theorem join_empty {path : String} (hpath : ¬ ['/'] <+: path.toList) : join "" path = path := by
  have hstart : path.startsWith "/" = false := by
    rw [← Bool.not_eq_true, startsWith_slash_iff]
    exact hpath
  simp [join, hstart]

/-! ### The parent -/

/-- What is dropped from the end of a path means nothing. -/
theorem components_trimEnd (cs : List Char) :
    components (String.ofList (trimEnd cs).reverse) = components (String.ofList cs.reverse) := by
  -- a path behind which nothing or a dot stands as its last piece
  have hpiece : ∀ (rest : List Char) (t : String), named (Text.splitAll '/' t) = [] →
      components (String.ofList ('/' :: rest).reverse ++ t) =
        components (String.ofList ('/' :: rest).reverse) := by
    intro rest t ht
    have hend : ['/'] <:+ (String.ofList ('/' :: rest).reverse).toList := by simp
    rw [components_slash_append hend, ht, List.append_nil]
  fun_induction trimEnd cs with
  | case1 rest hrest =>
    rw [List.isEmpty_iff.1 hrest]
  | case2 rest hrest ih =>
    rw [ih]
    have hne : String.ofList rest.reverse ≠ "" := by simpa using hrest
    rw [← components_slash hne]
    congr 1
    simp [String.ofList_append]
  | case3 rest ih =>
    have htext : String.ofList ('.' :: '/' :: rest).reverse = String.ofList ('/' :: rest).reverse ++ "." :=
      String.toList_inj.1 (by simp)
    rw [ih, htext, hpiece rest "." rfl]
  | case4 cs _ _ => rfl

/-- Behind what is dropped stands no slash, unless it is the path, and no dot of its own. -/
theorem trimEnd_cases (cs : List Char) : trimEnd cs = ['/'] ∨
    (∀ rest, trimEnd cs ≠ '/' :: rest) ∧ ∀ rest, trimEnd cs ≠ '.' :: '/' :: rest := by
  fun_induction trimEnd cs with
  | case1 rest _ => exact .inl rfl
  | case2 rest _ ih => exact ih
  | case3 rest ih => exact ih
  | case4 cs hslash hdot => exact .inr ⟨fun rest h => hslash rest h, fun rest h => hdot rest h⟩

theorem fileName?_of_components {path m : String} {cs : List Component}
    (h : components path = cs ++ [.name m]) : fileName? path = some m := by
  rw [fileName?, h, List.getLast?_append]
  rfl

/-- A path whose last piece is not dropped means what stands in front of the piece, and the piece. -/
theorem components_of_trimmed {last front : List Char} (hlast : '/' ∉ last)
    (hfront : front = [] ∨ ∃ rest, front = '/' :: rest)
    (htrimmed : last ++ front = ['/'] ∨
      (∀ rest, last ++ front ≠ '/' :: rest) ∧ ∀ rest, last ++ front ≠ '.' :: '/' :: rest)
    {n : String} (h : fileName? (String.ofList (last ++ front).reverse) = some n) :
    components (String.ofList (last ++ front).reverse) =
      components (String.ofList front.reverse) ++ [.name n] := by
  have hslash : '/' ∉ (String.ofList last.reverse).toList := by simpa using hlast
  have hword : last = (String.ofList last.reverse).toList.reverse := by simp
  rw [List.reverse_append, String.ofList_append] at h ⊢
  generalize String.ofList last.reverse = w at *
  subst hword
  suffices hname : IsName w ∧ components (String.ofList front.reverse ++ w) =
      components (String.ofList front.reverse) ++ named [w] by
    obtain ⟨hw, hcomponents⟩ := hname
    rw [named_singleton hw] at hcomponents
    rw [hcomponents, ← Option.some.inj ((fileName?_of_components hcomponents).symm.trans h)]
  have hnone : ∀ s ∈ ["", ".", "..", "/"], fileName? s = none := by decide
  rcases hfront with rfl | ⟨rest, rfl⟩
  · have hnothing : String.ofList ([] : List Char).reverse ++ w = w := by simp
    rw [hnothing] at h ⊢
    have hw : IsName w := by
      refine ⟨?_, ?_, ?_⟩ <;> rintro rfl <;> exact absurd (h.symm.trans (hnone _ (by simp))) (by simp)
    rw [components_of_isName hw hslash, named_singleton hw]
    exact ⟨hw, rfl⟩
  · have hend : ['/'] <:+ (String.ofList ('/' :: rest).reverse).toList := by simp
    have hcomponents := components_slash_append hend w
    rw [Text.splitAll_of_notMem hslash] at hcomponents
    refine ⟨⟨?_, ?_, ?_⟩, hcomponents⟩
    · rintro rfl
      rcases htrimmed with htop | ⟨hno, -⟩
      · obtain rfl : rest = [] := by simpa using htop
        have htop : String.ofList ['/'].reverse ++ "" = "/" := rfl
        rw [htop] at h
        exact absurd (h.symm.trans (hnone _ (by simp))) (by simp)
      · exact hno rest rfl
    · rintro rfl
      rcases htrimmed with htop | ⟨-, hno⟩
      · simp at htop
      · exact hno rest rfl
    · rintro rfl
      have hup : named [".."] = [.up] := rfl
      rw [hup] at hcomponents
      rw [fileName?, hcomponents, List.getLast?_append] at h
      exact absurd h (by simp)

/-- **A path means what its parent means, and its last name.** -/
theorem components_eq_parent {path n : String} (h : fileName? path = some n) :
    components path = components (parent path) ++ [.name n] := by
  have hpath := components_trimEnd path.toList.reverse
  have htrimmed := trimEnd_cases path.toList.reverse
  rw [List.reverse_reverse, String.ofList_toList] at hpath
  have hname : fileName? (String.ofList (trimEnd path.toList.reverse).reverse) = some n := by
    rw [fileName?, hpath]
    exact h
  have hparent : components (parent path) =
      components (String.ofList ((trimEnd path.toList.reverse).dropWhile (· ≠ '/')).reverse) :=
    components_trimEnd _
  rw [← hpath, hparent]
  generalize trimEnd path.toList.reverse = back at hname htrimmed ⊢
  obtain ⟨last, front, rfl, hlast, hfront, hdrop⟩ : ∃ last front, last ++ front = back ∧ '/' ∉ last ∧
      (front = [] ∨ ∃ rest, front = '/' :: rest) ∧ back.dropWhile (· ≠ '/') = front := by
    refine ⟨back.takeWhile (· ≠ '/'), _, List.takeWhile_append_dropWhile, fun hmem => ?_, ?_, rfl⟩
    · simpa using List.mem_takeWhile_imp hmem
    · cases hfront : back.dropWhile (· ≠ '/') with
      | nil => exact .inl rfl
      | cons c rest =>
        have hne : back.dropWhile (· ≠ '/') ≠ [] := by
          rw [hfront]
          exact List.cons_ne_nil c rest
        have hc := List.head_dropWhile_not _ hne
        simp only [hfront, List.head_cons, decide_eq_false_iff_not, not_not] at hc
        exact .inr ⟨rest, by rw [hc]⟩
  rw [hdrop]
  exact components_of_trimmed hlast hfront htrimmed hname

/-- **A path with another last name** differs in this name only. -/
theorem components_withFileName {path n m : String} (h : fileName? path = some n) (hm : IsName m)
    (hslash : '/' ∉ m.toList) :
    components (withFileName path m) = components (parent path) ++ [.name m] := by
  have hstart : ¬ ['/'] <+: m.toList := fun h => hslash (h.subset (List.mem_singleton.2 rfl))
  rw [withFileName, h]
  dsimp only
  by_cases hparent : parent path = ""
  · rw [hparent, join_empty hstart, components_of_isName hm hslash]
    rfl
  · rw [components_join hparent hstart, Text.splitAll_of_notMem hslash, named_singleton hm]

/-! ### The last piece -/

/-- What stands behind the last slash of a path. -/
theorem exists_last_piece (path : String) : ∃ t : String, '/' ∉ t.toList ∧
    (path = t ∨ ∃ s : String, path = s ++ "/" ++ t) := by
  by_cases hslash : '/' ∈ path.toList
  · obtain ⟨ds, cs, hpath, hlast⟩ := List.eq_append_cons_of_mem (List.mem_reverse.2 hslash)
    refine ⟨String.ofList ds.reverse, by simpa using hlast, .inr ⟨String.ofList cs.reverse, ?_⟩⟩
    apply String.toList_inj.1
    rw [← List.reverse_reverse path.toList, hpath]
    simp
  · exact ⟨path, hslash, .inl rfl⟩

/-- A path whose last component is a name ends in it, if nothing is written behind. -/
theorem isFile_of_components {path n : String} {cs : List Component} (hwants : wantsDirectory path = false)
    (h : components path = cs ++ [.name n]) : IsFile path := by
  have hempty : path ≠ "" := by
    rintro rfl
    cases cs <;> cases h
  obtain ⟨t, ht, hpath⟩ := exists_last_piece path
  have hsplit : ∃ pieces, Text.splitAll '/' path = pieces ++ [t] := by
    rcases hpath with rfl | ⟨s, rfl⟩
    · exact ⟨[], Text.splitAll_of_notMem ht⟩
    · exact ⟨Text.splitAll '/' s, by rw [Text.splitAll_append_sep rfl, Text.splitAll_of_notMem ht]⟩
  obtain ⟨pieces, hsplit⟩ := hsplit
  have hdirectory : ∀ s : String, path ≠ s ++ "/" ++ "" ∧ path ≠ s ++ "/" ++ "." := by
    intro s
    rw [← Bool.not_eq_true, wantsDirectory_iff] at hwants
    constructor <;> rintro rfl <;> simp at hwants
  have hlast : (components path).getLast? = some (.name n) := by rw [h, List.getLast?_concat]
  have hname : IsName t := by
    refine ⟨?_, ?_, ?_⟩ <;> rintro rfl
    · rcases hpath with rfl | ⟨s, hs⟩
      · exact hempty rfl
      · exact (hdirectory s).1 hs
    · rcases hpath with rfl | ⟨s, hs⟩
      · have hhere : components "." = [.here] := by decide
        rw [hhere] at hlast
        cases hlast
      · exact (hdirectory s).2 hs
    · rw [components_eq hempty, hsplit] at hlast
      by_cases hpieces : pieces = []
      · have hup : leading ([] ++ [".."]) = [.up] := by decide
        rw [hpieces, hup] at hlast
        cases hlast
      · have hup : named [".."] = [.up] := rfl
        rw [leading_append hpieces, hup, List.getLast?_concat] at hlast
        cases hlast
  obtain ⟨hne, hhere, hup⟩ := hname
  exact ⟨hwants, by simp [endsInDots, hsplit, hne, hhere, hup]⟩

end Provenance.Disk.Path
