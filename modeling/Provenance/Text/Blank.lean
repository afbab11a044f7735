/-! # Blank characters, trimming, splitting and filling

Text that people write (a mode, a policy, a cron line) is read up to blanks. A blank is a character
with the Unicode property `White_Space`, which is larger than the blanks of ASCII and different from
"prints as nothing": the zero-width space is no blank.

A table fills its cells with spaces. Width counts characters, and a cell that is too wide is kept
whole. -/

namespace Provenance.Text

/-- The characters with the Unicode property `White_Space`. -/
def isBlank (c : Char) : Bool :=
  let n := c.toNat
  (9 ≤ n && n ≤ 13) || n == 0x20 || n == 0x85 || n == 0xA0 || n == 0x1680 ||
    (0x2000 ≤ n && n ≤ 0x200A) || n == 0x2028 || n == 0x2029 || n == 0x202F || n == 0x205F ||
    n == 0x3000

/-- Drops the blanks at both ends. -/
def trim (s : String) : String :=
  String.ofList (((s.toList.dropWhile isBlank).reverse.dropWhile isBlank).reverse)

/-- The pieces between the characters that satisfy `p`: one more piece than there are such
characters, and empty pieces are kept. -/
def pieces (p : Char → Bool) : List Char → List (List Char)
  | [] => [[]]
  | c :: rest =>
    if p c then [] :: pieces p rest
    else match pieces p rest with
      | [] => [[c]]
      | w :: ws => (c :: w) :: ws

/-- The pieces of a text between the characters `sep`. -/
def splitAll (sep : Char) (s : String) : List String :=
  (pieces (· == sep) s.toList).map String.ofList

/-- The non-empty pieces of a text between blanks. -/
def words (s : String) : List String :=
  ((pieces isBlank s.toList).filter fun w => !w.isEmpty).map String.ofList

/-- The texts before and after the first `sep`, if there is one. -/
def splitFirst (sep : Char) (s : String) : Option (String × String) :=
  let cs := s.toList
  match cs.dropWhile (· != sep) with
  | [] => none
  | _ :: rest => some (String.ofList (cs.takeWhile (· != sep)), String.ofList rest)

/-- Lowercases the letters of ASCII and keeps every other character. -/
def lowerAscii (s : String) : String :=
  String.ofList (s.toList.map Char.toLower)

/-- Replaces every character `a` by the character `b`. -/
def swap (a b : Char) (s : String) : String :=
  String.ofList (s.toList.map fun c => if c = a then b else c)

/-- Fills a cell with spaces on the right, up to `width` characters. -/
def padRight (width : Nat) (s : String) : String :=
  s ++ String.ofList (List.replicate (width - s.length) ' ')

/-- Fills a cell with spaces on the left, up to `width` characters. -/
def padLeft (width : Nat) (s : String) : String :=
  String.ofList (List.replicate (width - s.length) ' ') ++ s

theorem pieces_ne_nil (p : Char → Bool) (cs : List Char) : pieces p cs ≠ [] := by
  cases cs with
  | nil => simp [pieces]
  | cons c rest =>
    unfold pieces
    split
    · simp
    · split <;> simp

end Provenance.Text
