import Calculator.Proofs.Results
import Mathlib.Algebra.Group.Int.Defs

/-!
# Exact values and overflow

An expression without division stands for an integer, whatever its size. Evaluating it either gives
that integer or fails, and it fails at the first operation whose exact result does not fit: first
in the order in which operations are applied, which is that of the nodes of the tree with the
operands of an operation before it. What comes after the failure does not matter, and so a value
that fits is no guarantee: one of the intermediate results may not fit.

Above a division everything is real. Nothing overflows there, and no integer comes out of it.

The failure of a tree is that of a node, and the node can be told by looking at each node with its
operands alone. `Expr.failure?` does that, and `Expr.findSome?_failure?` says that the first failure
in the list of subtrees is the failure of the tree. The rest of the theory is about one node.

## Main definitions

* `Operator.exactValue?`, `Expr.exactValue?`: results on unbounded integers.
* `Expr.DivisionFree`: there is no division in an expression.
* `Expr.subtrees`: the subtrees in the order in which they are evaluated.
* `Expr.failure?`, `Expr.FailsFirstAt`: where the operator of a node fails.

## Main results

* `Operator.apply_eq_integer_iff`, `Operator.apply_eq_overflow_iff`: one operation.
* `Expr.evaluate_eq_error_iff`: evaluating fails as its first failing node does.
* `Expr.evaluate_exact`: integers are exact, and what overflow means.
-/

namespace Calculator

theorem Integer.exists_toInt_eq_iff {v : Int} :
    (∃ n : Integer, v = n.toInt) ↔ -2 ^ 63 ≤ v ∧ v ≤ 2 ^ 63 - 1 := by
  constructor
  · rintro ⟨n, rfl⟩
    have hge := n.ge
    have hlt := n.lt
    omega
  · rintro ⟨hge, hle⟩
    exact ⟨⟨v, hge, by omega⟩, rfl⟩

/-! ### One operation -/

namespace Operator

/-- What an operator makes of two unbounded integers. A quotient need not be an integer. -/
def exactValue? : Operator → Int → Int → Option Int
  | .add, a, b => some (a + b)
  | .sub, a, b => some (a - b)
  | .mul, a, b => some (a * b)
  | .div, _, _ => none

variable {op : Operator} {a b : Number} {p : Nat}

/-- Two integers are combined exactly, if the result fits. -/
theorem apply_integers {i j : Integer} {v : Int} (h : op.exactValue? i.toInt j.toInt = some v)
    (p : Nat) :
    op.apply (.integer i) (.integer j) p =
      match Integer.ofInt? v with
      | some n => .ok (.integer n)
      | none => .error (.overflow p) := by
  cases op <;> cases h <;> rfl

theorem ne_div_of_exactValue? {m n v : Int} (h : op.exactValue? m n = some v) : op ≠ .div := by
  rintro rfl
  cases h

/-- An operator that is no division makes an integer of two integers, or it overflows. -/
theorem apply_integers_of_ne_div (hop : op ≠ .div) (i j : Integer) (p : Nat) :
    (∃ n, op.apply (.integer i) (.integer j) p = .ok (.integer n)) ∨
      op.apply (.integer i) (.integer j) p = .error (.overflow p) := by
  have hexact : ∃ v, op.exactValue? i.toInt j.toInt = some v := by
    cases op with
    | add | sub | mul => exact ⟨_, rfl⟩
    | div => exact absurd rfl hop
  obtain ⟨v, hv⟩ := hexact
  rw [apply_integers hv]
  cases Integer.ofInt? v with
  | some n => exact .inl ⟨n, rfl⟩
  | none => exact .inr rfl

/-- Operands that are not two integers are combined as reals. -/
theorem combine_reals {f : Int → Int → Int} {g : Binary64 → Binary64 → Binary64}
    (h : ¬ ∃ i j, a = .integer i ∧ b = .integer j) :
    combine f g a b p = .ok (.real (g a.toReal b.toReal)) := by
  rcases a with i | x <;> rcases b with j | y <;> first | rfl | exact absurd ⟨i, j, rfl, rfl⟩ h

/-- With a real operand, or in a division, there is no exact result: the result is real, or a
division by zero. -/
theorem apply_of_not_exact
    (h : ¬ ∃ i j v, a = .integer i ∧ b = .integer j ∧ op.exactValue? i.toInt j.toInt = some v) :
    (∃ x, op.apply a b p = .ok (.real x)) ∨ op.apply a b p = .error (.divisionByZero p) := by
  cases op with
  | div =>
    rw [apply, divide]
    split
    · exact .inr rfl
    · exact .inl ⟨_, rfl⟩
  | add | sub | mul =>
    exact .inl ⟨_, combine_reals fun ⟨i, j, ha, hb⟩ => h ⟨i, j, _, ha, hb, rfl⟩⟩

/-- An integer and an overflow both come from two integers that have an exact result. -/
theorem exists_exact_of_apply {n : Integer} {q : Nat}
    (h : op.apply a b p = .ok (.integer n) ∨ op.apply a b p = .error (.overflow q)) :
    ∃ i j v, a = .integer i ∧ b = .integer j ∧ op.exactValue? i.toInt j.toInt = some v := by
  refine Classical.byContradiction fun hnot => ?_
  rcases apply_of_not_exact (p := p) hnot with ⟨x, hx⟩ | hx <;> rw [hx] at h <;>
    rcases h with h | h <;> cases h

/-- **An operation gives an integer** when its operands are integers and that is the exact
result. -/
theorem apply_eq_integer_iff {n : Integer} :
    op.apply a b p = .ok (.integer n) ↔
      ∃ i j, a = .integer i ∧ b = .integer j ∧ op.exactValue? i.toInt j.toInt = some n.toInt := by
  constructor
  · intro h
    obtain ⟨i, j, v, rfl, rfl, hv⟩ := exists_exact_of_apply (q := 0) (.inl h)
    rw [apply_integers hv] at h
    split at h
    · next m hm =>
      cases h
      rw [Integer.ofInt?_eq_some_iff] at hm
      exact ⟨i, j, rfl, rfl, by rw [hv, hm]⟩
    · cases h
  · rintro ⟨i, j, rfl, rfl, hv⟩
    rw [apply_integers hv, Integer.ofInt?_eq_some_iff.mpr rfl]

/-- **An operation overflows** when its operands are integers and the exact result does not fit. -/
theorem apply_eq_overflow_iff {q : Nat} :
    op.apply a b p = .error (.overflow q) ↔ p = q ∧
      ∃ i j v, a = .integer i ∧ b = .integer j ∧ op.exactValue? i.toInt j.toInt = some v ∧
        (v < -2 ^ 63 ∨ 2 ^ 63 - 1 < v) := by
  constructor
  · intro h
    obtain ⟨i, j, v, rfl, rfl, hv⟩ := exists_exact_of_apply (n := default) (.inr h)
    rw [apply_integers hv] at h
    split at h
    · cases h
    · next hm =>
      cases h
      rw [Integer.ofInt?_eq_none_iff] at hm
      exact ⟨rfl, i, j, v, rfl, rfl, hv, by omega⟩
  · rintro ⟨rfl, i, j, v, rfl, rfl, hv, hout⟩
    rw [apply_integers hv, Integer.ofInt?_eq_none_iff.mpr (by omega)]

end Operator

/-! ### The first failure -/

namespace Expr

/-- The subtrees in postorder: those of the left operand, those of the right one, the tree. -/
def subtrees : Expr → List Expr
  | .literal value p => [.literal value p]
  | .binary op left right p => left.subtrees ++ right.subtrees ++ [.binary op left right p]

/-- The error of applying the operator of the root, if the operands have values. -/
def failure? : Expr → Option RuntimeError
  | .literal _ _ => none
  | .binary op left right p =>
    match left.evaluate.result, right.evaluate.result with
    | .ok a, .ok b => error? (op.apply a b p)
    | _, _ => none

/-- The node at which evaluating a tree fails, if it does: in postorder, the first one at which
applying the operator fails. -/
def FailsFirstAt (e s : Expr) : Prop :=
  ∃ before after, e.subtrees = before ++ s :: after ∧ (∀ t ∈ before, t.failure? = none) ∧
    s.failure? ≠ none

/-- **The failure of a tree is the first failure of a node.** -/
theorem findSome?_failure? (e : Expr) :
    e.subtrees.findSome? failure? = error? e.evaluate.result := by
  induction e with
  | literal value p => rfl
  | binary op left right p ihleft ihright =>
    rw [subtrees, List.findSome?_append, List.findSome?_append, ihleft, ihright,
      result_evaluate_binary, List.findSome?_singleton, failure?]
    cases left.evaluate.result with
    | error err => rfl
    | ok a =>
      cases right.evaluate.result with
      | error err => rfl
      | ok b => rfl

theorem error?_eq_some_iff {ε α : Type} {x : Except ε α} {e : ε} :
    error? x = some e ↔ x = .error e :=
  ⟨error_of_error?, fun h => by rw [h]; rfl⟩

/-- **Evaluating fails as its first failing node does.** -/
theorem evaluate_eq_error_iff {e : Expr} {err : RuntimeError} :
    e.evaluate.result = .error err ↔ ∃ s, e.FailsFirstAt s ∧ s.failure? = some err := by
  rw [← error?_eq_some_iff, ← findSome?_failure?, List.findSome?_eq_some_iff]
  constructor
  · rintro ⟨before, s, after, htrees, hs, hbefore⟩
    exact ⟨s, ⟨before, after, htrees, hbefore, by rw [hs]; exact nofun⟩, hs⟩
  · rintro ⟨s, ⟨before, after, htrees, hbefore, -⟩, hs⟩
    exact ⟨before, s, after, htrees, hs, hbefore⟩

theorem failure?_binary_eq_some_iff {op : Operator} {left right : Expr} {p : Nat}
    {err : RuntimeError} :
    (binary op left right p).failure? = some err ↔
      ∃ a b, left.evaluate.result = .ok a ∧ right.evaluate.result = .ok b ∧
        op.apply a b p = .error err := by
  rw [failure?]
  constructor
  · intro h
    split at h
    · next a b ha hb => exact ⟨a, b, ha, hb, error_of_error? h⟩
    · cases h
  · rintro ⟨a, b, ha, hb, h⟩
    rw [ha, hb]
    exact error?_eq_some_iff.mpr h

/-! ### Exact values -/

/-- There is no division in an expression. -/
def DivisionFree (e : Expr) : Prop := ∀ p, Node.operation .div p ∉ e.postorder

/-- The value of an expression over unbounded integers; none if there is a division in it. -/
def exactValue? : Expr → Option Int
  | .literal value _ => some value.toInt
  | .binary op left right _ => do op.exactValue? (← left.exactValue?) (← right.exactValue?)

theorem exactValue?_binary_eq_some_iff {op : Operator} {left right : Expr} {p : Nat} {v : Int} :
    (binary op left right p).exactValue? = some v ↔
      ∃ m n, left.exactValue? = some m ∧ right.exactValue? = some n ∧
        op.exactValue? m n = some v := by
  simp [exactValue?, Option.bind_eq_some_iff]

theorem divisionFree_binary_iff {op : Operator} {left right : Expr} {p : Nat} :
    (binary op left right p).DivisionFree ↔
      left.DivisionFree ∧ right.DivisionFree ∧ op ≠ .div := by
  simp only [DivisionFree, postorder, List.mem_append, List.mem_singleton, Node.operation.injEq,
    not_or, not_and]
  constructor
  · intro h
    exact ⟨fun q => (h q).1.1, fun q => (h q).1.2, fun hop => (h p).2 hop.symm rfl⟩
  · rintro ⟨hleft, hright, hop⟩ q
    exact ⟨⟨hleft q, hright q⟩, fun h => absurd h.symm hop⟩

/-- **The expressions without division are those that have an exact value.** -/
theorem divisionFree_iff {e : Expr} : e.DivisionFree ↔ ∃ v, e.exactValue? = some v := by
  induction e with
  | literal value p => simp [DivisionFree, postorder, exactValue?]
  | binary op left right p ihleft ihright =>
    rw [divisionFree_binary_iff, ihleft, ihright]
    constructor
    · rintro ⟨⟨m, hm⟩, ⟨n, hn⟩, hop⟩
      cases op with
      | add | sub | mul => exact ⟨_, exactValue?_binary_eq_some_iff.mpr ⟨m, n, hm, hn, rfl⟩⟩
      | div => exact absurd rfl hop
    · rintro ⟨v, hv⟩
      obtain ⟨m, n, hm, hn, hmn⟩ := exactValue?_binary_eq_some_iff.mp hv
      exact ⟨⟨m, hm⟩, ⟨n, hn⟩, by rintro rfl; cases hmn⟩

/-- The exact value of every subtree fits. -/
def Fits (e : Expr) : Prop := ∀ s ∈ e.subtrees, ∃ n : Integer, s.exactValue? = some n.toInt

theorem mem_subtrees_self (e : Expr) : e ∈ e.subtrees := by
  cases e <;> simp [subtrees]

theorem Fits.exists_exactValue? {e : Expr} (h : e.Fits) :
    ∃ n : Integer, e.exactValue? = some n.toInt :=
  h e e.mem_subtrees_self

theorem fits_literal (value : Integer) (p : Nat) : (literal value p).Fits := by
  intro s hs
  obtain rfl := List.mem_singleton.mp hs
  exact ⟨value, rfl⟩

theorem fits_binary_iff {op : Operator} {left right : Expr} {p : Nat} :
    (binary op left right p).Fits ↔ left.Fits ∧ right.Fits ∧
      ∃ n : Integer, (binary op left right p).exactValue? = some n.toInt := by
  simp only [Fits, subtrees, List.mem_append, List.mem_singleton]
  constructor
  · intro h
    exact ⟨fun s hs => h s (.inl (.inl hs)), fun s hs => h s (.inl (.inr hs)), h _ (.inr rfl)⟩
  · rintro ⟨hleft, hright, hroot⟩ s ((hs | hs) | rfl)
    · exact hleft s hs
    · exact hright s hs
    · exact hroot

/-- **Integers are exact.** Evaluating gives an integer when the exact value of every subtree fits,
and then the integer is the exact value of the tree. -/
theorem evaluate_eq_integer_iff {e : Expr} {n : Integer} :
    e.evaluate.result = .ok (.integer n) ↔ e.Fits ∧ e.exactValue? = some n.toInt := by
  induction e generalizing n with
  | literal value p =>
    have hroot : (literal value p).evaluate.result = .ok (.integer value) := rfl
    simp only [hroot, Except.ok.injEq, Number.integer.injEq, exactValue?, Option.some.injEq]
    constructor
    · rintro rfl
      exact ⟨fits_literal value p, rfl⟩
    · rintro ⟨-, h⟩
      exact Integer.ext h
  | binary op left right p ihleft ihright =>
    rw [result_evaluate_binary, fits_binary_iff, bind_eq_ok_iff]
    constructor
    · rintro ⟨a, ha, h⟩
      obtain ⟨b, hb, h⟩ := bind_eq_ok_iff.mp h
      obtain ⟨i, j, rfl, rfl, hv⟩ := Operator.apply_eq_integer_iff.mp h
      obtain ⟨hleft, hi⟩ := ihleft.mp ha
      obtain ⟨hright, hj⟩ := ihright.mp hb
      have hroot := exactValue?_binary_eq_some_iff (p := p).mpr ⟨_, _, hi, hj, hv⟩
      exact ⟨⟨hleft, hright, n, hroot⟩, hroot⟩
    · rintro ⟨⟨hleft, hright, -⟩, h⟩
      obtain ⟨u, v, hu, hv, huv⟩ := exactValue?_binary_eq_some_iff.mp h
      obtain ⟨i, hi⟩ := hleft.exists_exactValue?
      obtain ⟨j, hj⟩ := hright.exists_exactValue?
      obtain rfl := Option.some.inj (hu.symm.trans hi)
      obtain rfl := Option.some.inj (hv.symm.trans hj)
      exact ⟨_, ihleft.mpr ⟨hleft, hi⟩, bind_eq_ok_iff.mpr ⟨_, ihright.mpr ⟨hright, hj⟩,
        Operator.apply_eq_integer_iff.mpr ⟨i, j, rfl, rfl, huv⟩⟩⟩

/-- An integer does not come out of a division. -/
theorem divisionFree_of_integer {e : Expr} {n : Integer}
    (h : e.evaluate.result = .ok (.integer n)) : e.DivisionFree :=
  divisionFree_iff.mpr ⟨_, (evaluate_eq_integer_iff.mp h).2⟩

/-- Without division nothing becomes real. -/
theorem exists_integer_of_divisionFree {e : Expr} (hfree : e.DivisionFree) {a : Number}
    (h : e.evaluate.result = .ok a) : ∃ n, a = .integer n := by
  induction e generalizing a with
  | literal value p =>
    cases h
    exact ⟨value, rfl⟩
  | binary op left right p ihleft ihright =>
    obtain ⟨hleft, hright, hop⟩ := divisionFree_binary_iff.mp hfree
    rw [result_evaluate_binary, bind_eq_ok_iff] at h
    obtain ⟨b, hb, h⟩ := h
    obtain ⟨c, hc, h⟩ := bind_eq_ok_iff.mp h
    obtain ⟨i, rfl⟩ := ihleft hleft hb
    obtain ⟨j, rfl⟩ := ihright hright hc
    rcases Operator.apply_integers_of_ne_div hop i j p with ⟨n, hn⟩ | hn
    · exact ⟨n, Except.ok.inj (h.symm.trans hn)⟩
    · cases h.symm.trans hn

/-- **A node without division fails by overflow**: its operands are the integers that they stand
for, and its exact value does not fit. -/
theorem failure?_of_divisionFree {s : Expr} (hfree : s.DivisionFree) (h : s.failure? ≠ none) :
    s.failure? = some (.overflow s.position) := by
  obtain ⟨err, herr⟩ := Option.ne_none_iff_exists'.mp h
  cases s with
  | literal value p => cases herr
  | binary op left right p =>
    obtain ⟨hleft, hright, hop⟩ := divisionFree_binary_iff.mp hfree
    obtain ⟨a, b, ha, hb, happly⟩ := failure?_binary_eq_some_iff.mp herr
    obtain ⟨i, rfl⟩ := exists_integer_of_divisionFree hleft ha
    obtain ⟨j, rfl⟩ := exists_integer_of_divisionFree hright hb
    rcases Operator.apply_integers_of_ne_div hop i j p with ⟨n, hn⟩ | hn
    · cases happly.symm.trans hn
    · obtain rfl := Except.error.inj (happly.symm.trans hn)
      exact herr

/-- An overflow is that of a node without division, whose exact value does not fit. -/
theorem failure?_eq_overflow {s : Expr} {p : Nat} (h : s.failure? = some (.overflow p)) :
    s.position = p ∧ s.DivisionFree ∧ (∃ op left right, s = .binary op left right p ∧ op ≠ .div) ∧
      ∃ v, s.exactValue? = some v ∧ (v < -2 ^ 63 ∨ 2 ^ 63 - 1 < v) := by
  cases s with
  | literal value q => cases h
  | binary op left right q =>
    obtain ⟨a, b, ha, hb, happly⟩ := failure?_binary_eq_some_iff.mp h
    obtain ⟨rfl, i, j, v, rfl, rfl, hv, hout⟩ := Operator.apply_eq_overflow_iff.mp happly
    have hi := (evaluate_eq_integer_iff.mp ha).2
    have hj := (evaluate_eq_integer_iff.mp hb).2
    have hroot := exactValue?_binary_eq_some_iff (p := q).mpr ⟨_, _, hi, hj, hv⟩
    exact ⟨rfl, divisionFree_iff.mpr ⟨v, hroot⟩,
      ⟨op, left, right, rfl, Operator.ne_div_of_exactValue? hv⟩, v, hroot, hout⟩

/-- **Integers are exact, and overflow is reported precisely.** Evaluating gives an integer when
there is no division and the exact value of every subtree has 64 bits, and it is the exact value of
the tree; with a division in it, a tree that has a value has a real one; and an overflow is reported
when the first node that fails, in postorder, is a sum, difference or product without division whose
exact value does not have 64 bits, at the position of that node. -/
theorem evaluate_exact (e : Expr) :
    (∀ n : Integer, e.evaluate.result = .ok (.integer n) ↔
      e.DivisionFree ∧
      (∀ s ∈ e.subtrees, ∃ v, s.exactValue? = some v ∧ -2 ^ 63 ≤ v ∧ v ≤ 2 ^ 63 - 1) ∧
      e.exactValue? = some n.toInt) ∧
    (¬ e.DivisionFree → ∀ a, e.evaluate.result = .ok a → ∃ x, a = .real x) ∧
    ∀ p, e.evaluate.result = .error (.overflow p) ↔
      ∃ s, e.FailsFirstAt s ∧ s.DivisionFree ∧
        (∃ op left right, s = .binary op left right p ∧ op ≠ .div) ∧
        ∃ v, s.exactValue? = some v ∧ (v < -2 ^ 63 ∨ 2 ^ 63 - 1 < v) := by
  have hfits : e.Fits ↔
      ∀ s ∈ e.subtrees, ∃ v, s.exactValue? = some v ∧ -2 ^ 63 ≤ v ∧ v ≤ 2 ^ 63 - 1 := by
    refine forall₂_congr fun s _ => ?_
    simp only [← Integer.exists_toInt_eq_iff]
    constructor
    · rintro ⟨n, hn⟩
      exact ⟨_, hn, n, rfl⟩
    · rintro ⟨_, hv, n, rfl⟩
      exact ⟨n, hv⟩
  refine ⟨fun n => ?_, fun hdivision a ha => ?_, fun p => ?_⟩
  · rw [evaluate_eq_integer_iff, ← hfits]
    exact ⟨fun h => ⟨divisionFree_iff.mpr ⟨_, h.2⟩, h⟩, And.right⟩
  · cases a with
    | integer n => exact absurd (divisionFree_of_integer ha) hdivision
    | real x => exact ⟨x, rfl⟩
  · rw [evaluate_eq_error_iff]
    refine exists_congr fun s => and_congr_right fun hfirst => ?_
    constructor
    · exact fun h => (failure?_eq_overflow h).2
    · rintro ⟨hfree, ⟨op, left, right, rfl, -⟩, -⟩
      obtain ⟨-, -, -, -, hfails⟩ := hfirst
      exact failure?_of_divisionFree hfree hfails

/-- The sum does not fit, although the value of the whole would. -/
example : error? (binary .sub (binary .add (literal ⟨2 ^ 63 - 1, by decide, by decide⟩ 0)
    (literal ⟨1, by decide, by decide⟩ 4) 2) (literal ⟨1, by decide, by decide⟩ 8)
    6).evaluate.result = some (.overflow 2) := by decide

end Expr

end Calculator
