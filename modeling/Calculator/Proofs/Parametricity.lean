import Mathlib.Data.List.Forall2
import Calculator.Proofs.Lexing
import Calculator.Proofs.Pushdown

/-!
# Trees that the machine does not look into

The pushdown machine keeps trees and puts them together, and it never looks into one that it has.
Two runs over the same tokens therefore go the same way, whatever trees they began with. How the
trees of one run relate to those of the other is decided by how trees are put together, and so
every congruence between trees is preserved.

The tokens of the second run may stand at other positions, which then appear in its trees and
errors.

## Main definitions

* `Pushdown.Related`: states that differ in related trees and in moved positions.
* `Answers`: answers that differ in the same way.

## Main results

* `Pushdown.move_related`: one move preserves a congruence.
* `Pushdown.advance_mapPosition`: a run preserves it.
* `answers_of_readings`: what this means for two texts with the same tokens.
* `evaluate_of_answers`: what it means for the values of two texts.
-/

namespace Calculator

variable {f : Nat → Nat} {E : Expr → Expr → Prop}

/-- Operators that wait with related left operands. -/
structure Pending.Related (f : Nat → Nat) (E : Expr → Expr → Prop) (w x : Pending) : Prop where
  left : E w.left x.left
  op : x.op = w.op
  position : x.position = f w.position

/-- Levels on which the same operators wait. -/
structure Frame.Related (f : Nat → Nat) (E : Expr → Expr → Prop) (a b : Frame) : Prop where
  sum : Option.Rel (Pending.Related f E) a.sum b.sum
  product : Option.Rel (Pending.Related f E) a.product b.product

/-- Answers with related trees, or with the same error at positions that correspond. -/
inductive Answers (f : Nat → Nat) (E : Expr → Expr → Prop) :
    Except Error Expr → Except Error Expr → Prop where
  | ok {d e : Expr} (h : E d e) : Answers f E (.ok d) (.ok e)
  | error (e : Error) : Answers f E (.error e) (.error (e.mapPosition f))

theorem Frame.related_empty : Frame.Related f E .empty .empty := ⟨.none, .none⟩

theorem Pending.complete_related (hE : Expr.Congruence f E) {w x : Option Pending} {d e : Expr}
    (hpending : Option.Rel (Pending.Related f E) w x) (h : E d e) :
    E (Pending.complete w d) (Pending.complete x e) := by
  cases hpending with
  | none => exact h
  | some hw =>
    rw [Pending.complete, Pending.complete, hw.op, hw.position]
    exact hE.binary hw.left h _ _

theorem Frame.after_related (hE : Expr.Congruence f E) {w x : Option Pending} {d e : Expr}
    (hpending : Option.Rel (Pending.Related f E) w x) (h : E d e) (op : Operator) (p : Nat) :
    Frame.Related f E (.after w d op p) (.after x e op (f p)) := by
  rw [Frame.after, Frame.after]
  split
  · exact ⟨hpending, .some ⟨h, rfl, rfl⟩⟩
  · exact ⟨.some ⟨Pending.complete_related hE hpending h, rfl, rfl⟩, .none⟩

namespace Pushdown

/-- States that differ in related trees and in moved positions. -/
inductive Related (f : Nat → Nat) (E : Expr → Expr → Prop) : Pushdown → Pushdown → Prop where
  | expecting {a b : Frame} {as bs : List Frame} (hframe : Frame.Related f E a b)
    (houter : List.Forall₂ (Frame.Related f E) as bs) :
    Related f E (.expecting a as) (.expecting b bs)
  | seen {d e : Expr} {w x : Option Pending} {as bs : List Frame} (hterm : E d e)
    (hsum : Option.Rel (Pending.Related f E) w x)
    (houter : List.Forall₂ (Frame.Related f E) as bs) :
    Related f E (.seen d w as) (.seen e x bs)

theorem related_start : Related f E start start := .expecting Frame.related_empty .nil

theorem afterFactor_related (hE : Expr.Congruence f E) {a b : Frame} {as bs : List Frame}
    {d e : Expr} (h : E d e) (hframe : Frame.Related f E a b)
    (houter : List.Forall₂ (Frame.Related f E) as bs) :
    Related f E (afterFactor d a as) (afterFactor e b bs) :=
  .seen (Pending.complete_related hE hframe.product h) hframe.sum houter

theorem finish_related (hE : Expr.Congruence f E) {as bs : List Frame} {d e : Expr} (h : E d e)
    (houter : List.Forall₂ (Frame.Related f E) as bs) (strict : Bool) (l : Lexeme) :
    Move.Related (Related f E) (Answers f E) (finish strict d l as)
      (finish strict e (l.mapPosition f) bs) := by
  cases houter with
  | nil =>
    rw [finish, finish, ending, ending, Lexeme.token_mapPosition]
    split
    · exact .stop (.ok h)
    · exact .stop (.error _)
  | cons hframe houter =>
    rw [finish, finish, Lexeme.token_mapPosition]
    split
    · exact .go (afterFactor_related hE h hframe houter)
    · exact .stop (.error _)

/-- **One move preserves a congruence.** -/
theorem move_related (hE : Expr.Congruence f E) {x y : Pushdown} (h : Related f E x y)
    (strict : Bool) (l : Lexeme) :
    Move.Related (Related f E) (Answers f E) (move strict x l)
      (move strict y (l.mapPosition f)) := by
  rcases h with ⟨hframe, houter⟩ | ⟨hterm, hsum, houter⟩
  · rw [move, move, Lexeme.token_mapPosition]
    split
    · exact .go (afterFactor_related hE (hE.literal _ _) hframe houter)
    · exact .go (.expecting Frame.related_empty (.cons hframe houter))
    · exact .stop (.error _)
  · rw [move, move, Lexeme.token_mapPosition]
    split
    · exact .go (.expecting (Frame.after_related hE hsum hterm _ _) houter)
    · exact finish_related hE (Pending.complete_related hE hsum hterm) houter strict l

/-- **A run preserves a congruence**, when the second machine is fed the same readings, moved. -/
theorem advance_mapPosition (hE : Expr.Congruence f E) {x y : Pushdown} (h : Related f E x y)
    (strict : Bool) (rs : List Reading) :
    Move.Related (Related f E) (Answers f E) (advance (move strict) x rs)
      (advance (move strict) y (rs.map (Reading.mapPosition f))) := by
  refine advance_related (fun x y r hxy => ?_) h rs
  cases r with
  | ok l => exact move_related hE hxy strict l
  | error e => exact .stop (.error (.lexical e))

end Pushdown

/-- Texts with the same readings at other positions are parsed in the same way. -/
theorem answers_of_readings (hE : Expr.Congruence f E) {s t : String}
    (h : readings t = (readings s).map (Reading.mapPosition f)) (strict : Bool) :
    Answers f E (parse s strict) (parse t strict) := by
  have hrun := Pushdown.advance_mapPosition hE Pushdown.related_start strict (readings s)
  rw [← h, Pushdown.advance_readings, Pushdown.advance_readings] at hrun
  cases hrun with
  | stop hanswers => exact hanswers

/-- Texts that are parsed to agreeing trees have agreeing values. -/
theorem evaluate_of_answers {s t : String} {strict : Bool}
    (h : Answers f (Expr.Agrees f) (parse s strict) (parse t strict)) :
    evaluate t strict = (evaluate s strict).mapError (Error.mapPosition f) := by
  rw [evaluate_eq_bind, evaluate_eq_bind]
  generalize parse s strict = x at h
  generalize parse t strict = y at h
  cases h with
  | error e => rfl
  | @ok d e hagrees =>
    rw [Except.bind, Except.bind, hagrees]
    cases d.evaluate.result <;> rfl

end Calculator
