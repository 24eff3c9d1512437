import Calculator.Text.Blank

/-!
# Words and lengths of texts

A text is a list of characters, and its length is counted in the bytes of its UTF-8 encoding. A
word is a whole run of ASCII digits, or a single character that is no digit.

## Main definitions

* `Calculator.byteLength`: the length of a text in bytes.
* `Calculator.splitWord`: the first word of a text.

## Main results

* `Calculator.splitWord_append`: a word and what follows it make up the text.
* `Calculator.splitWord_maximal`: no digit follows a run of digits.
-/

namespace Calculator

/-- The number of bytes in the UTF-8 encoding of a text. -/
def byteLength (cs : List Char) : Nat := cs.foldr (fun c n => c.utf8Size + n) 0

@[simp] theorem byteLength_nil : byteLength [] = 0 := rfl

@[simp] theorem byteLength_cons (c : Char) (cs : List Char) :
    byteLength (c :: cs) = c.utf8Size + byteLength cs := rfl

@[simp] theorem byteLength_append (cs ds : List Char) :
    byteLength (cs ++ ds) = byteLength cs + byteLength ds := by
  induction cs with
  | nil => simp
  | cons c cs ih => rw [List.cons_append, byteLength_cons, byteLength_cons, ih, Nat.add_assoc]

theorem byteLength_pos {cs : List Char} (h : cs ≠ []) : 0 < byteLength cs := by
  obtain ⟨c, ds, rfl⟩ := List.exists_cons_of_ne_nil h
  have := c.utf8Size_pos
  simp only [byteLength_cons]
  omega

/-! ### Words -/

/-- The first word of a text that begins with `c`, and the text after it: all digits if `c` is
one, otherwise `c` alone. -/
def splitWord (c : Char) (cs : List Char) : List Char × List Char :=
  if c.isDigit then (c :: cs.takeWhile Char.isDigit, cs.dropWhile Char.isDigit) else ([c], cs)

theorem splitWord_append (c : Char) (cs : List Char) :
    (splitWord c cs).1 ++ (splitWord c cs).2 = c :: cs := by
  rw [splitWord]
  split <;> simp

theorem splitWord_fst_ne_nil (c : Char) (cs : List Char) : (splitWord c cs).1 ≠ [] := by
  rw [splitWord]
  split <;> simp

theorem length_splitWord_snd_le (c : Char) (cs : List Char) :
    (splitWord c cs).2.length ≤ cs.length := by
  have h := congrArg List.length (splitWord_append c cs)
  have hne := List.length_pos_iff.2 (splitWord_fst_ne_nil c cs)
  simp only [List.length_append, List.length_cons] at h
  omega

/-- No digit follows a run of digits. -/
theorem splitWord_maximal {c : Char} (hc : c.isDigit) (cs : List Char) {d : Char}
    {ds : List Char} (h : (splitWord c cs).2 = d :: ds) : d.isDigit = false := by
  have hd := List.head?_dropWhile_not Char.isDigit cs
  rw [splitWord, if_pos hc] at h
  dsimp only at h
  rwa [h] at hd

end Calculator
