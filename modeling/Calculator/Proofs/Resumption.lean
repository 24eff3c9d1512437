import Calculator.Proofs.Places
import Calculator.Proofs.Simulation

/-!
# Starting in the middle of a text

A cursor carries more than the text that is still to be read: where that text begins, where the last
word was found, and whether the end was met. If a cursor that has come to the middle of a text, past
words and past errors, is put beside one at the start of the rest of the text, then these differ.
All the same the two read the same. The first offset is ahead of the second by the same number of
bytes all the time; the next reading overwrites the place of the last word; and a cursor that has
met the end differs from one that is about to meet it in what it records only, since it has met the
end where it stands.

What holds of two cursors holds of two streams, since taking a head reads once.

## Main definitions

* `Cursor.EndsInPlace`: an end that was met, was met here.
* `Cursor.Aligned`, `TokenStream.Aligned`: the same is still to be read, at other offsets.

## Main results

* `Cursor.Aligned.next`: one reading.
* `TokenStream.simulation_aligned`: aligned streams remain aligned.
* `observe_resumed`: going on in a text is starting with the rest of it.
-/

namespace Calculator

namespace Cursor

variable {c d : Cursor} {p : Nat}

/-- If the end of the text was met, it was met where the cursor stands. -/
def EndsInPlace (c : Cursor) : Prop := c.exhausted = true → c.position = c.offset

theorem endsInPlace_ofString (text : String) : (ofString text).EndsInPlace := nofun

/-- When there is no word any more, the end is met, be it for the first time or again. -/
theorem EndsInPlace.next_of_no_word (h : c.EndsInPlace) (hrest : c.rest.dropWhile isBlank = []) :
    c.next.result = .ok .endOfInput ∧ c.next.state = atEnd c.start := by
  cases hx : c.exhausted with
  | false =>
    rw [next_of_blank hx hrest]
    exact ⟨rfl, rfl⟩
  | true =>
    have hnil := c.rest_eq_nil hx
    have hposition := h hx
    rw [next_of_exhausted hx, start, hnil]
    obtain ⟨rest, offset, position, exhausted, _⟩ := c
    dsimp only at hx hnil hposition
    subst hx hnil hposition
    exact ⟨rfl, rfl⟩

theorem EndsInPlace.next (h : c.EndsInPlace) : c.next.state.EndsInPlace := by
  cases hrest : c.rest.dropWhile isBlank with
  | nil =>
    rw [(h.next_of_no_word hrest).2]
    exact fun _ => rfl
  | cons ch cs =>
    rw [(next_of_word hrest).2]
    exact nofun

theorem endsInPlace_skip (text : String) (n : Nat) : (skip n (ofString text)).EndsInPlace := by
  induction n with
  | zero => exact endsInPlace_ofString text
  | succ n ih =>
    rw [skip_succ]
    exact ih.next

/-- The cursor `d` is still to read the same text as `c`, `p` bytes further on. -/
structure Aligned (p : Nat) (c d : Cursor) : Prop where
  rest_eq : d.rest = c.rest
  offset_eq : d.offset = p + c.offset
  endsInPlace_left : c.EndsInPlace
  endsInPlace_right : d.EndsInPlace

theorem Aligned.start_eq (h : Aligned p c d) : d.start = p + c.start := by
  rw [start, start, h.rest_eq, h.offset_eq, Nat.add_assoc]

/-- **One reading.** The two cursors read the same, `p` bytes apart, and so they go on. -/
theorem Aligned.next (h : Aligned p c d) :
    d.next.result = c.next.result.mapError (LexError.mapPosition (p + ·)) ∧
      d.next.state.position = p + c.next.state.position ∧ Aligned p c.next.state d.next.state := by
  have hleft := h.endsInPlace_left.next
  have hright := h.endsInPlace_right.next
  cases hrest : c.rest.dropWhile isBlank with
  | nil =>
    obtain ⟨hc, hc'⟩ := h.endsInPlace_left.next_of_no_word hrest
    obtain ⟨hd, hd'⟩ := h.endsInPlace_right.next_of_no_word (by rwa [h.rest_eq])
    rw [h.start_eq] at hd'
    rw [hc'] at hleft
    rw [hd'] at hright
    rw [hc, hd, hc', hd']
    exact ⟨rfl, rfl, rfl, rfl, hleft, hright⟩
  | cons ch cs =>
    obtain ⟨hc, hc'⟩ := next_of_word hrest
    obtain ⟨hd, hd'⟩ := next_of_word (c := d) (by rwa [h.rest_eq])
    rw [h.start_eq] at hd hd'
    rw [hc'] at hleft
    rw [hd'] at hright
    rw [hc, hd, hc', hd']
    exact ⟨Token.ofWord_map_position (p + ·) ch _ _, rfl, rfl, Nat.add_assoc _ _ _, hleft, hright⟩

/-- The start of the rest of a text is beside every cursor that has come there. -/
theorem EndsInPlace.aligned (h : d.EndsInPlace) :
    (ofString (String.ofList d.rest)).Aligned d.offset d where
  rest_eq := String.toList_ofList.symm
  offset_eq := rfl
  endsInPlace_left := endsInPlace_ofString _
  endsInPlace_right := h

end Cursor

namespace TokenStream

variable {p : Nat} {s t : TokenStream} {c d : Cursor}

/-- The heads are the same, `p` bytes apart, and so is what is still to be read. -/
structure Aligned (p : Nat) (s t : TokenStream) : Prop where
  head_eq : t.head = s.head.mapPosition (p + ·)
  cursor : s.cursor.Aligned p t.cursor

/-- Streams that were read from aligned cursors are aligned. -/
theorem ReadFrom.aligned (hs : s.ReadFrom c) (ht : t.ReadFrom d) (h : c.Aligned p d) :
    s.Aligned p t := by
  obtain ⟨hresult, hposition, hcursor⟩ := h.next
  rw [hs.result_next, ht.result_next] at hresult
  rw [← hs.cursor_eq, ← ht.cursor_eq, ← hs.position_head, ← ht.position_head] at hposition
  rw [← hs.cursor_eq, ← ht.cursor_eq] at hcursor
  refine ⟨?_, hcursor⟩
  rw [Lexeme.mapPosition, ← hposition, ← Except.ok.inj hresult]

/-- **Aligned streams remain aligned.** -/
theorem simulation_aligned (p : Nat) : Simulation (p + ·) (Aligned p) where
  head_eq h := h.head_eq
  take {s t} h k := by
    have htoken : t.head.token = s.head.token := by rw [h.head_eq, Lexeme.token_mapPosition]
    have hposition : t.head.position = p + s.head.position := by
      rw [h.head_eq, Lexeme.position_mapPosition]
    by_cases hkind : s.head.token.kind = k
    · have hkind' : t.head.token.kind = k := by rwa [htoken]
      obtain ⟨hresult, -, hcursor⟩ := h.cursor.next
      cases hnext : s.cursor.next.result with
      | ok u =>
        rw [hnext] at hresult
        obtain ⟨hs, hread⟩ := take_of_next_ok hkind hnext
        obtain ⟨ht, hread'⟩ := take_of_next_ok hkind' hresult
        rw [htoken] at ht
        exact ⟨by rw [hs, ht]; rfl, hread.aligned hread' h.cursor⟩
      | error e =>
        rw [hnext] at hresult
        obtain ⟨hs, hcursor_eq, hhead⟩ := take_of_next_error hkind hnext
        obtain ⟨ht, hcursor_eq', hhead'⟩ := take_of_next_error hkind' hresult
        refine ⟨by rw [hs, ht]; rfl, ?_, ?_⟩
        · rw [hhead, hhead']
          exact h.head_eq
        · rw [hcursor_eq, hcursor_eq']
          exact hcursor
    · rw [take_of_ne hkind, take_of_ne (by rwa [htoken]), htoken, hposition]
      exact Outcome.corresponds_error h id _

/-- Whether a stream can be made, does not depend on where the text stands. -/
theorem ofCursor_of_aligned (h : c.Aligned p d) :
    (∀ e, (ofCursor c).result = .error e →
      (ofCursor d).result = .error (e.mapPosition (p + ·))) ∧
    ∀ s, (ofCursor c).result = .ok s → ∃ t, (ofCursor d).result = .ok t ∧ s.Aligned p t := by
  have hnext := h.next.1
  refine ⟨fun e he => ?_, fun s hs => ?_⟩
  · rw [result_next_of_ofCursor_error he] at hnext
    cases hd : (ofCursor d).result with
    | ok t => cases hnext.symm.trans (readFrom_ofCursor hd).result_next
    | error e' =>
      cases hnext.symm.trans (result_next_of_ofCursor_error hd)
      rfl
  · have hread := readFrom_ofCursor hs
    rw [hread.result_next] at hnext
    cases hd : (ofCursor d).result with
    | ok t => exact ⟨t, rfl, hread.aligned (readFrom_ofCursor hd) h⟩
    | error e' => cases hnext.symm.trans (result_next_of_ofCursor_error hd)

end TokenStream

/-- **Going on in a text is starting with the rest of it.** Let some readings be made of a text,
errors passed over, and cut the text at the place where they lead. A stream can be made there if one
can be made of the rest alone, and then the same is seen of both, whatever is done with them, with
the length of the first part added to every position. -/
theorem observe_resumed (text : String) (n : Nat) :
    ∃ before rest : String, text = before ++ rest ∧
      before.utf8ByteSize = ((Cursor.ofString text).skip n).offset ∧
      (∀ e, (TokenStream.ofString rest).result = .error e →
        (TokenStream.ofCursor ((Cursor.ofString text).skip n)).result =
          .error (e.mapPosition (before.utf8ByteSize + ·))) ∧
      ∀ s, (TokenStream.ofString rest).result = .ok s →
        ∃ t, (TokenStream.ofCursor ((Cursor.ofString text).skip n)).result = .ok t ∧
          t.head = s.head.mapPosition (before.utf8ByteSize + ·) ∧
          ∀ ops, t.observe ops =
            (s.observe ops).map (Observation.mapPosition (before.utf8ByteSize + ·)) := by
  obtain ⟨before, hstands⟩ := Cursor.exists_stands_skip text n
  have hsize : (String.ofList before).utf8ByteSize = ((Cursor.ofString text).skip n).offset := by
    rw [hstands.offset_eq, ← byteLength_toList, String.toList_ofList]
  refine ⟨String.ofList before, String.ofList ((Cursor.ofString text).skip n).rest, ?_, hsize, ?_⟩
  · rw [← String.toList_inj, hstands.text_eq]
    simp
  · obtain ⟨herror, hok⟩ :=
      TokenStream.ofCursor_of_aligned (Cursor.endsInPlace_skip text n).aligned
    rw [hsize]
    refine ⟨herror, fun s hs => ?_⟩
    obtain ⟨t, ht, hst⟩ := hok s hs
    exact ⟨t, ht, hst.head_eq, fun ops =>
      (TokenStream.simulation_aligned _).observe_eq ops hst⟩

end Calculator
