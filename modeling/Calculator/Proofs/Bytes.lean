import Calculator.Text.Word

/-!
# Texts as bytes

A text is a list of characters, and its places are counted in bytes. Whoever reads the text as bytes
needs two facts about the encoding: the bytes of a text are those of its characters one after the
other, so that a character stands where the bytes before it end; and a byte below 128 is a character
of its own and never a part of another one, so that it can be searched for without decoding.

## Main definitions

* `bytes`: the bytes of a text.
* `byteAt?`: the byte at a place of a text.

## Main results

* `bytes_append`: the bytes of two texts put together.
* `byteAt?_of_toList`: the byte of an ASCII character.
* `mem_of_mem_bytes`: an ASCII byte is the byte of a character of the text.
* `fromUTF8?_bytes`: the text of the bytes of a text.
-/

namespace Calculator

/-- The bytes of a text in UTF-8. -/
def bytes (text : String) : List UInt8 := text.toUTF8.data.toList

/-- The byte at a place of a text. -/
def byteAt? (text : String) (p : Nat) : Option UInt8 := (bytes text)[p]?

/-- The bytes of a text are those of its characters. -/
theorem bytes_eq_flatMap (text : String) :
    bytes text = text.toList.flatMap String.utf8EncodeChar := by
  rw [bytes, String.toUTF8_eq_toByteArray, ← String.utf8Encode_toList, List.utf8Encode,
    List.toList_data_toByteArray]

theorem bytes_append (s t : String) : bytes (s ++ t) = bytes s ++ bytes t := by
  simp only [bytes_eq_flatMap, String.toList_append, List.flatMap_append]

theorem length_flatMap_utf8EncodeChar (cs : List Char) :
    (cs.flatMap String.utf8EncodeChar).length = byteLength cs := by
  induction cs with
  | nil => rfl
  | cons c cs ih =>
    rw [List.flatMap_cons, List.length_append, String.length_utf8EncodeChar, ih, byteLength_cons]

/-- **The byte of an ASCII character** is at the place where the character stands. -/
theorem byteAt?_of_toList {text : String} {before after : List Char} {c : Char}
    (htext : text.toList = before ++ c :: after) (hc : c.utf8Size = 1) :
    byteAt? text (byteLength before) = some c.toUInt8 := by
  rw [byteAt?, bytes_eq_flatMap, htext, List.flatMap_append, List.flatMap_cons,
    String.utf8EncodeChar_eq_singleton hc, ← length_flatMap_utf8EncodeChar before,
    List.getElem?_append_right Nat.le.refl, Nat.sub_self]
  rfl

/-! ### ASCII -/

theorem utf8Size_eq_one_iff {c : Char} : c.utf8Size = 1 ↔ c.toNat ≤ 127 := by
  rw [Char.utf8Size_eq_one_iff, UInt32.le_iff_toNat_le]
  rfl

/-- The byte of an ASCII character is its code. -/
theorem toNat_toUInt8 {c : Char} (hc : c.utf8Size = 1) : c.toUInt8.toNat = c.toNat := by
  rw [utf8Size_eq_one_iff] at hc
  exact Nat.mod_eq_of_lt (Nat.lt_of_le_of_lt hc (by decide))

/-- The bytes of a character that is not in ASCII are not in ASCII. -/
theorem le_of_mem_utf8EncodeChar {c : Char} (hc : c.utf8Size ≠ 1) :
    ∀ b ∈ String.utf8EncodeChar c, 128 ≤ b.toNat := by
  have hlarge : ¬ c.val.toNat ≤ 127 := by rwa [Ne, utf8Size_eq_one_iff] at hc
  simp only [String.utf8EncodeChar, if_neg hlarge]
  split
  · simp only [List.forall_mem_cons, UInt8.toNat_ofNat']
    refine ⟨by omega, by omega, nofun⟩
  · split
    · simp only [List.forall_mem_cons, UInt8.toNat_ofNat']
      refine ⟨by omega, by omega, by omega, nofun⟩
    · simp only [List.forall_mem_cons, UInt8.toNat_ofNat']
      refine ⟨by omega, by omega, by omega, by omega, nofun⟩

/-- **An ASCII byte of a text** is the byte of a character of the text. -/
theorem mem_of_mem_bytes {text : String} {c : Char} (hc : c.utf8Size = 1)
    (h : c.toUInt8 ∈ bytes text) : c ∈ text.toList := by
  rw [bytes_eq_flatMap, List.mem_flatMap] at h
  obtain ⟨d, hd, hmem⟩ := h
  by_cases hsize : d.utf8Size = 1
  · rw [String.utf8EncodeChar_eq_singleton hsize, List.mem_singleton] at hmem
    have hcode : c.toNat = d.toNat := by
      rw [← toNat_toUInt8 hc, ← toNat_toUInt8 hsize, hmem]
      rfl
    rwa [Char.toNat_inj.mp hcode]
  · have hle := le_of_mem_utf8EncodeChar hsize _ hmem
    rw [toNat_toUInt8 hc] at hle
    rw [utf8Size_eq_one_iff] at hc
    omega

/-! ### Decoding -/

/-- **Decoding the bytes of a text** gives the text. -/
theorem fromUTF8?_bytes (text : String) :
    String.fromUTF8? ⟨(bytes text).toArray⟩ = some text := by
  have hbytes : (⟨(bytes text).toArray⟩ : ByteArray) = text.toByteArray := rfl
  rw [hbytes, String.fromUTF8?, dif_pos text.isValidUTF8]
  rfl

end Calculator
