import Provenance.Text.Utf8

/-!
# Bytes of a text

A text is the bytes of its characters, one after the other (`encode_eq`), and they spell it again
(`decode?_encode`).  Two more facts make it possible to read a text byte by byte.  A byte below 128 is a
character of its own (`ne_of_mem_utf8EncodeChar`), so whoever looks for a comma among bytes finds no
part of another character.  And which character stands first is settled by the bytes in front
(`utf8EncodeChar_append_inj`), whatever follows them.
-/

namespace Provenance.Text

private theorem loop_eq (bs : ByteArray) (i : Nat) (r : List UInt8) :
    ByteArray.toList.loop bs i r = r.reverse ++ bs.data.toList.drop i := by
  induction i, r using ByteArray.toList.loop.induct bs with
  | case1 i r h ih =>
    have hi : i < bs.data.toList.length := h
    rw [ByteArray.toList.loop, if_pos h, ih, List.drop_eq_getElem_cons hi]
    have hget : bs.get! i = bs.data.toList[i] := getElem!_pos bs.data i h
    simp [hget]
  | case2 i r h =>
    have hi : bs.data.toList.length ≤ i := Nat.le_of_not_lt h
    rw [ByteArray.toList.loop, if_neg h, List.drop_eq_nil_of_le hi, List.append_nil]

/-- The list of the bytes is the list of the array that holds them. -/
theorem toList_eq (bs : ByteArray) : bs.toList = bs.data.toList := by
  rw [ByteArray.toList, loop_eq]
  rfl

/-- The bytes of a text are those of its characters. -/
theorem encode_eq (s : String) : encode s = s.toList.flatMap String.utf8EncodeChar := by
  have h : s.toUTF8 = (s.toList.flatMap String.utf8EncodeChar).toByteArray :=
    s.utf8Encode_toList.symm
  rw [encode, toList_eq, h, List.toList_data_toByteArray]

@[simp] theorem encode_ofList (cs : List Char) :
    encode (String.ofList cs) = cs.flatMap String.utf8EncodeChar := by
  rw [encode_eq, String.toList_ofList]

/-- What the bytes of a text spell is the text. -/
@[simp] theorem decode?_encode (s : String) : decode? (encode s) = some s := by
  have h : ByteArray.mk (encode s).toArray = s.toByteArray := by
    rw [encode, toList_eq, Array.toArray_toList]
    rfl
  rw [decode?, String.fromUTF8?, h, dif_pos s.isValidUTF8]
  rfl

/-- A byte with a bit of 128 is not below 128. -/
private theorem le_toNat_or (x y : UInt8) (h : 128 ≤ y.toNat) : 128 ≤ (x ||| y).toNat := by
  rw [UInt8.toNat_or]
  exact Nat.le_trans h Nat.right_le_or

/-- A byte below 128 in the bytes of a character is the character. -/
theorem toNat_of_mem_utf8EncodeChar {c : Char} {b : UInt8} (hb : b ∈ String.utf8EncodeChar c)
    (h : b.toNat < 128) : c.toNat = b.toNat := by
  have hlarge : ∀ x y : UInt8, 128 ≤ y.toNat → b ≠ x ||| y := fun x y hy e =>
    absurd (le_toNat_or x y hy) (by rw [← e]; omega)
  match hc : c.utf8Size, c.utf8Size_pos, c.utf8Size_le_four with
  | 1, _, _ =>
    have hsmall : c.val ≤ 127 := Char.utf8Size_eq_one_iff.1 hc
    have hval : c.val.toNat ≤ 127 := hsmall
    rw [String.utf8EncodeChar_eq_singleton hc, List.mem_singleton] at hb
    rw [hb, UInt32.toNat_toUInt8]
    exact (Nat.mod_eq_of_lt (Nat.lt_of_le_of_lt hval (by decide))).symm
  | 2, _, _ =>
    rw [String.utf8EncodeChar_eq_cons_cons hc] at hb
    simp only [List.mem_cons, List.not_mem_nil, or_false] at hb
    rcases hb with hb | hb
    all_goals exact absurd hb (hlarge _ _ (by decide))
  | 3, _, _ =>
    rw [String.utf8EncodeChar_eq_cons_cons_cons hc] at hb
    simp only [List.mem_cons, List.not_mem_nil, or_false] at hb
    rcases hb with hb | hb | hb
    all_goals exact absurd hb (hlarge _ _ (by decide))
  | 4, _, _ =>
    rw [String.utf8EncodeChar_eq_cons_cons_cons_cons hc] at hb
    simp only [List.mem_cons, List.not_mem_nil, or_false] at hb
    rcases hb with hb | hb | hb | hb
    all_goals exact absurd hb (hlarge _ _ (by decide))

/-- A byte below 128 stands for one character, and is none of the bytes of another. -/
theorem ne_of_mem_utf8EncodeChar {c : Char} {b k : UInt8} (hb : b ∈ String.utf8EncodeChar c)
    (hk : k.toNat < 128) (hc : c ≠ Char.ofNat k.toNat) : b ≠ k := by
  rintro rfl
  exact hc (by rw [← toNat_of_mem_utf8EncodeChar hb hk, Char.ofNat_toNat])

/-- The bytes in front settle which character stands first. -/
theorem utf8EncodeChar_append_inj {c c' : Char} {rest rest' : List UInt8}
    (h : String.utf8EncodeChar c ++ rest = String.utf8EncodeChar c' ++ rest') : c = c' := by
  have hbytes : (String.utf8EncodeChar c).toByteArray ++ rest.toByteArray =
      (String.utf8EncodeChar c').toByteArray ++ rest'.toByteArray := by
    rw [← List.toByteArray_append, ← List.toByteArray_append, h]
  have hc := ByteArray.utf8DecodeChar?_utf8EncodeChar_append (c := c) (b := rest.toByteArray)
  rw [hbytes, ByteArray.utf8DecodeChar?_utf8EncodeChar_append] at hc
  exact (Option.some.inj hc).symm

end Provenance.Text
