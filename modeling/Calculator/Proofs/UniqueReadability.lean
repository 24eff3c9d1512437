import Calculator.Proofs.Digits
import Calculator.Proofs.Relocation
import Calculator.Proofs.RoundTrip

/-!
# A text is the text of one tree

Two trees that differ in more than their positions have different texts. For trees without negative
literals this could be had from parsing, which gives the tree of a text back; but a text with a
negative literal in it is refused, although it can be read. In `(1 - -2)` the minus sign is an
operator and then a part of a literal, and only its place tells which.

What has to be shown is where the text of a tree ends when something comes after it, since this is
where the main operator of a larger text is. A literal ends where its digits end, and an operation
where the parenthesis after its right operand is. So the texts of two trees that begin at the same
place end at the same place.

## Main results

* `Integer.render_append_cancel`, `Expr.render_append_cancel`: where the text of an integer and of
  an expression ends.
* `Expr.render_eq_render_iff`: which trees have the same text.
-/

namespace Calculator

namespace Integer

/-- **Where the text of an integer ends.** -/
theorem render_append_cancel {m n : Integer} {us vs : List Char} (hus : EndsDigits us)
    (hvs : EndsDigits vs) (h : m.render.toList ++ us = n.render.toList ++ vs) :
    m = n ∧ us = vs := by
  by_cases hm : 0 ≤ m.toInt <;> by_cases hn : 0 ≤ n.toInt
  · rw [toList_render_of_nonneg hm, toList_render_of_nonneg hn] at h
    obtain ⟨hvalue, hrest⟩ := toDigits_append_cancel hus hvs h
    exact ⟨Integer.ext (by omega), hrest⟩
  · rw [toList_render_of_nonneg hm, toList_render_of_neg (by omega), List.cons_append] at h
    exact absurd h (toDigits_append_ne_cons rfl _ _)
  · rw [toList_render_of_neg (by omega), toList_render_of_nonneg hn, List.cons_append] at h
    exact absurd h.symm (toDigits_append_ne_cons rfl _ _)
  · rw [toList_render_of_neg (by omega), toList_render_of_neg (by omega), List.cons_append,
      List.cons_append] at h
    obtain ⟨hvalue, hrest⟩ := toDigits_append_cancel hus hvs (List.cons.inj h).2
    exact ⟨Integer.ext (by omega), hrest⟩

/-- No integer is written with a parenthesis at the beginning. -/
theorem render_append_ne (n : Integer) (us vs : List Char) :
    n.render.toList ++ us ≠ '(' :: vs := by
  by_cases hn : 0 ≤ n.toInt
  · rw [toList_render_of_nonneg hn]
    exact toDigits_append_ne_cons rfl _ _
  · rw [toList_render_of_neg (by omega), List.cons_append]
    exact fun h => absurd (List.cons.inj h).1 (by decide)

end Integer

namespace Operator

theorem symbol_injective : Function.Injective symbol := by
  intro op op' h
  cases op <;> cases op' <;> first | rfl | exact absurd h (by decide)

end Operator

namespace Expr

/-- The tree without its positions. -/
def bare (e : Expr) : Expr := e.mapPosition fun _ => 0

/-- Positions are not written. -/
theorem render_bare (e : Expr) : e.bare.render = e.render := by
  induction e with
  | literal value p => rfl
  | binary op left right p ihleft ihright =>
    rw [bare, mapPosition, render, ← bare, ← bare, ihleft, ihright, render]

/-- **Where the text of an expression ends.** If two texts are the same and each begins with the
text of a tree, then it is the same tree, positions aside, and what comes after it is the same. -/
theorem render_append_cancel {a b : Expr} {us vs : List Char} (hus : EndsDigits us)
    (hvs : EndsDigits vs) (h : a.render.toList ++ us = b.render.toList ++ vs) :
    a.bare = b.bare ∧ us = vs := by
  induction a generalizing b us vs with
  | literal m p =>
    cases b with
    | literal n q =>
      obtain ⟨rfl, hrest⟩ := Integer.render_append_cancel hus hvs h
      exact ⟨rfl, hrest⟩
    | binary op left right q =>
      rw [toList_render_binary, List.cons_append] at h
      exact absurd h (Integer.render_append_ne m us _)
  | binary op left right p ihleft ihright =>
    cases b with
    | literal n q =>
      rw [toList_render_binary, List.cons_append] at h
      exact absurd h.symm (Integer.render_append_ne n vs _)
    | binary op' left' right' q =>
      simp only [toList_render_binary, List.cons_append, List.append_assoc, List.cons.injEq,
        true_and] at h
      -- a blank comes after a left operand, and a parenthesis after a right one
      obtain ⟨hleft, hoperator⟩ := ihleft (endsDigits_cons rfl _) (endsDigits_cons rfl _) h
      simp only [List.cons.injEq, true_and] at hoperator
      obtain ⟨hright, hrest⟩ :=
        ihright (endsDigits_cons rfl _) (endsDigits_cons rfl _) hoperator.2
      obtain rfl := Operator.symbol_injective hoperator.1
      refine ⟨?_, (List.cons.inj hrest).2⟩
      rw [bare, mapPosition, ← bare, ← bare, hleft, hright]
      rfl

/-- **A text is the text of one tree**: two trees have the same text exactly when they have the same
shape, the same operators and the same literals. -/
theorem render_eq_render_iff (a b : Expr) :
    a.render = b.render ↔ a.mapPosition (fun _ => 0) = b.mapPosition (fun _ => 0) := by
  constructor
  · intro h
    have htext : a.render.toList ++ [] = b.render.toList ++ [] := by rw [h]
    exact (render_append_cancel endsDigits_nil endsDigits_nil htext).1
  · intro h
    calc a.render = a.bare.render := a.render_bare.symm
      _ = b.bare.render := congrArg render h
      _ = b.render := b.render_bare

/-- The text of a tree with a negative literal, which parsing does not give back. -/
example :
    (binary .sub (literal { toInt := 1 } 0) (literal { toInt := -2 } 0) 0).render = "(1 - -2)" ∧
      (parse "(1 - -2)" true).toOption = none := by
  decide +kernel

end Expr

end Calculator
