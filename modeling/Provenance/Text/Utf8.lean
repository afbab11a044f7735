/-! # Bytes as text

A file holds bytes. `firstFault?` says where bytes stop being well-formed UTF-8, counted in bytes,
and `decode?` reads them when they are; `characters` reads what there is to read. -/

namespace Provenance.Text

/-- The bytes of a text. -/
def encode (s : String) : List UInt8 := s.toUTF8.toList

/-- The text that the bytes spell, if they are well-formed. -/
def decode? (bytes : List UInt8) : Option String :=
  String.fromUTF8? (ByteArray.mk bytes.toArray)

/-- The number of bytes of a character that starts with a byte, if any does. -/
def width? (lead : UInt8) : Option Nat :=
  if lead ≤ 0x7F then some 1
  else if 0xC2 ≤ lead && lead ≤ 0xDF then some 2
  else if 0xE0 ≤ lead && lead ≤ 0xEF then some 3
  else if 0xF0 ≤ lead && lead ≤ 0xF4 then some 4
  else none

/-- Whether a byte stands inside a character. -/
def isInner (b : UInt8) : Bool := 0x80 ≤ b && b ≤ 0xBF

/-- Whether a byte can be the second one of a character: no overlong form, no surrogate, nothing above
the last code point. -/
def follows (lead second : UInt8) : Bool :=
  (if lead == 0xE0 then 0xA0 ≤ second else if lead == 0xF0 then 0x90 ≤ second else true) &&
    (if lead == 0xED then second ≤ 0x9F else if lead == 0xF4 then second ≤ 0x8F else true) &&
    isInner second

/-- How many bytes at the head fit the character that the first one starts. -/
def fitting : List UInt8 → Nat
  | lead :: second :: rest =>
    match width? lead with
    | none | some 1 => 1
    | some w => if follows lead second then 2 + ((rest.take (w - 2)).takeWhile isInner).length else 1
  | bytes => bytes.length

/-- The number of bytes of the well-formed character at the head of `bytes`, if there is one. -/
def leadingWidth? (bytes : List UInt8) : Option Nat :=
  (bytes.head?.bind width?).filter (· == fitting bytes)

/-- The index of the first byte that starts no well-formed character, if there is one. -/
def firstFault? (bytes : List UInt8) : Option Nat :=
  scan bytes.length 0 bytes
where
  /-- Goes over the characters; `fuel` bounds their number. -/
  scan : Nat → Nat → List UInt8 → Option Nat
    | _, _, [] => none
    | 0, _, _ => none
    | fuel + 1, at_, rest =>
      match leadingWidth? rest with
      | some w => scan fuel (at_ + w) (rest.drop w)
      | none => some at_

/-- What the bytes spell, character by character. Where they spell none there is `none`, once for every
stretch that has the beginning of a character, or for a single byte. -/
def characters (bytes : List UInt8) : List (Option Char) :=
  go bytes.length bytes
where
  /-- Goes over the characters; `fuel` bounds their number. -/
  go : Nat → List UInt8 → List (Option Char)
    | 0, _ => []
    | _, [] => []
    | fuel + 1, bytes =>
      let n := fitting bytes
      ((leadingWidth? bytes).bind fun _ => (decode? (bytes.take n)).bind (·.toList.head?)) ::
        go fuel (bytes.drop n)

/-- The text that the bytes spell, with a mark wherever they spell no character. -/
def decodeMarked (bytes : List UInt8) : String :=
  String.ofList ((characters bytes).map (·.getD '\uFFFD'))

end Provenance.Text
