import Calculator.Proofs.Provenance

/-!
# The text of a tree as a normal form

A text that is parsed can be replaced by the text of its tree. This is the same expression with all
its parentheses, each once, with one blank on either side of an operator, with no zeros before a
literal and with nothing after the end, and it is written as itself when it is parsed again. It has
the value of the first text. If there is none then the same operation fails for the same reason; the
error is where that operation is written.

Which operation that is has to be said without positions, since these are different in the two
texts. An operation is told by the place where a tree has it, and `Expr.Shows` goes along that
place: it says what is written before a subtree and after it. In a tree that was parsed no two nodes
have the same position, so that the position in the first error leaves no choice.

## Main definitions

* `Expr.Shows`: the texts between which a subtree is written.
* `Expr.beforeOperator`: the text before the operator of a subtree.

## Main results

* `Expr.evaluate_written_of_ok`, `Expr.evaluate_written_of_error`: the value and the error of the
  expression that was written.
* `Expr.Shows.eq_of_position`: a subtree is known by the position of its root.
* `evaluate_render_of_parse`: the text of a tree in place of the text that was parsed.
-/

namespace Calculator

namespace Expr

/-- `e.Shows before s after`: the expression `e` is written as `before`, the subtree `s` and
`after`. -/
inductive Shows : Expr → List Char → Expr → List Char → Prop where
  | root (e : Expr) : Shows e [] e []
  | left {left s : Expr} {before after : List Char} (h : Shows left before s after)
    (op : Operator) (right : Expr) (p : Nat) :
    Shows (.binary op left right p) ('(' :: before) s
      (after ++ ' ' :: op.symbol :: ' ' :: (right.render.toList ++ [')']))
  | right {right s : Expr} {before after : List Char} (h : Shows right before s after)
    (op : Operator) (left : Expr) (p : Nat) :
    Shows (.binary op left right p)
      ('(' :: (left.render.toList ++ ' ' :: op.symbol :: ' ' :: before)) s (after ++ [')'])

/-- **What is shown is what is written.** -/
theorem Shows.toList_render {e s : Expr} {before after : List Char} (h : e.Shows before s after) :
    e.render.toList = before ++ (s.render.toList ++ after) := by
  induction h with
  | root e => simp
  | left _ op right p ih => rw [toList_render_binary, ih]; simp
  | right _ op left p ih => rw [toList_render_binary, ih]; simp

/-- What is written before the operator of an operation that is written after `before`. -/
def beforeOperator (before : List Char) (left : Expr) : List Char :=
  before ++ '(' :: (left.render.toList ++ [' '])

/-- The operator of an operation that is shown is written where `beforeOperator` says. -/
theorem Shows.exists_toList_render {e left right : Expr} {op : Operator} {p : Nat}
    {before after : List Char} (h : e.Shows before (.binary op left right p) after) :
    ∃ rest, e.render.toList = beforeOperator before left ++ op.symbol :: rest := by
  refine ⟨' ' :: (right.render.toList ++ ')' :: after), ?_⟩
  rw [h.toList_render, toList_render_binary, beforeOperator]
  simp

/-! ### Positions and nodes -/

/-- The position of the root of what is shown is that of a node. -/
theorem Shows.position_mem {e s : Expr} {before after : List Char} (h : e.Shows before s after) :
    s.position ∈ e.inorder.map Node.position := by
  induction h with
  | root e => cases e <;> simp [inorder, position, Node.position]
  | left _ op right p ih =>
    rw [inorder, List.map_append, List.mem_append]
    exact .inl ih
  | right _ op left p ih =>
    rw [inorder, List.map_append, List.mem_append]
    exact .inr (List.mem_cons_of_mem _ ih)

theorem nodup_binary {op : Operator} {left right : Expr} {p : Nat}
    (h : ((binary op left right p).inorder.map Node.position).Nodup) :
    (left.inorder.map Node.position).Nodup ∧ (right.inorder.map Node.position).Nodup ∧
      (binary op left right p).position ∉ left.inorder.map Node.position ∧
      (binary op left right p).position ∉ right.inorder.map Node.position ∧
      ∀ q ∈ left.inorder.map Node.position, q ∉ right.inorder.map Node.position := by
  rw [inorder, List.map_append, List.nodup_append, List.map_cons, List.nodup_cons] at h
  obtain ⟨hleft, ⟨hp, hright⟩, hdisjoint⟩ := h
  exact ⟨hleft, hright, fun hmem => hdisjoint p hmem p List.mem_cons_self rfl, hp,
    fun q hq hq' => hdisjoint q hq q (List.mem_cons_of_mem _ hq') rfl⟩

/-- **A subtree is known by the position of its root**, if no other node has the same. -/
theorem Shows.eq_of_position {e s t : Expr} {before after before' after' : List Char}
    (hnodup : (e.inorder.map Node.position).Nodup) (h : e.Shows before s after)
    (h' : e.Shows before' t after') (hposition : s.position = t.position) :
    before = before' ∧ s = t := by
  -- the two must go the same way, since the positions to the left and to the right are different
  induction h generalizing before' after' with
  | root e =>
    cases h' with
    | root => exact ⟨rfl, rfl⟩
    | left h' =>
      obtain ⟨-, -, hp, -, -⟩ := nodup_binary hnodup
      exact absurd (hposition ▸ h'.position_mem) hp
    | right h' =>
      obtain ⟨-, -, -, hp, -⟩ := nodup_binary hnodup
      exact absurd (hposition ▸ h'.position_mem) hp
  | left h op right p ih =>
    obtain ⟨hleft, -, hp, -, hdisjoint⟩ := nodup_binary hnodup
    cases h' with
    | root => exact absurd (hposition ▸ h.position_mem) hp
    | left h' =>
      obtain ⟨rfl, rfl⟩ := ih hleft h' hposition
      exact ⟨rfl, rfl⟩
    | right h' => exact absurd h'.position_mem (hposition ▸ hdisjoint _ h.position_mem)
  | right h op left p ih =>
    obtain ⟨-, hright, -, hp, hdisjoint⟩ := nodup_binary hnodup
    cases h' with
    | root => exact absurd (hposition ▸ h.position_mem) hp
    | left h' => exact absurd h.position_mem (hposition ▸ hdisjoint _ h'.position_mem)
    | right h' =>
      obtain ⟨rfl, rfl⟩ := ih hright h' hposition
      exact ⟨rfl, rfl⟩

/-! ### The expression that was written -/

theorem render_written (e : Expr) (p : Nat) : (e.written p).render = e.render := by
  induction e generalizing p with
  | literal value q => rfl
  | binary op left right q ihleft ihright => rw [written, render, render, ihleft, ihright]

/-- An expression with no negative literal has none when it is written. -/
theorem firstNegative?_written {e : Expr}
    (h : ∀ (value : Integer) (q : Nat), .literal value q ∈ e.inorder → 0 ≤ value.toInt)
    (p : Nat) : (e.written p).firstNegative? = none := by
  induction e generalizing p with
  | literal value q =>
    have hvalue := h value q (List.mem_singleton.mpr rfl)
    rw [written, firstNegative?_literal, if_neg (by omega)]
  | binary op left right q ihleft ihright =>
    rw [written, firstNegative?_binary,
      ihleft fun value r hmem => h value r (List.mem_append_left _ hmem),
      ihright fun value r hmem => h value r
        (List.mem_append_right _ (List.mem_cons_of_mem _ hmem))]
    rfl

theorem byteLength_beforeOperator (before : List Char) (left : Expr) :
    byteLength (beforeOperator before left) = byteLength before + left.render.utf8ByteSize + 2 := by
  have hsizes : '('.utf8Size = 1 ∧ ' '.utf8Size = 1 := ⟨rfl, rfl⟩
  simp only [beforeOperator, byteLength_append, byteLength_cons, byteLength_nil, byteLength_toList,
    hsizes]
  omega

/-- In a left operand everything is written behind a parenthesis. -/
theorem byteLength_beforeOperator_left (before : List Char) (l : Expr) :
    byteLength (beforeOperator ('(' :: before) l) = 1 + byteLength (beforeOperator before l) := by
  have hparen : '('.utf8Size = 1 := rfl
  simp only [byteLength_beforeOperator, byteLength_cons, hparen]
  omega

/-- In a right operand everything is written behind a parenthesis, the left operand, the operator
and the blanks around it. -/
theorem byteLength_beforeOperator_right (op : Operator) (left : Expr) (before : List Char)
    (l : Expr) :
    byteLength (beforeOperator
        ('(' :: (left.render.toList ++ ' ' :: op.symbol :: ' ' :: before)) l) =
      left.render.utf8ByteSize + 4 + byteLength (beforeOperator before l) := by
  have hsizes : '('.utf8Size = 1 ∧ ' '.utf8Size = 1 := ⟨rfl, rfl⟩
  simp only [byteLength_beforeOperator, byteLength_append, byteLength_cons, byteLength_toList,
    hsizes, op.utf8Size_symbol]
  omega

/-- An expression that has a value has it when it is written. -/
theorem evaluate_written_of_ok {e : Expr} {n : Number} (h : e.evaluate.result = .ok n) (p : Nat) :
    (e.written p).evaluate.result = .ok n := by
  have hforget := result_evaluate_mapPosition h fun _ => 0
  rw [← mapPosition_written e p 0] at hforget
  have hagrees : Agrees (fun _ => 0) (e.written p) ((e.written p).mapPosition fun _ => 0) :=
    agrees_congruence.mapPosition _
  exact mapError_eq_ok_iff.mp (hagrees.symm.trans hforget)

/-- **The error of an expression that is written** is that of the same operation, at the place where
its operator is written. -/
theorem evaluate_written_of_error {e : Expr} {err : RuntimeError}
    (h : e.evaluate.result = .error err) :
    ∃ before op left right after, e.Shows before (.binary op left right err.position) after ∧
      ∀ p, (e.written p).evaluate.result =
        .error (err.mapPosition fun _ => p + byteLength (beforeOperator before left)) := by
  induction e with
  | literal value q => cases h
  | binary op left right q ihleft ihright =>
    rw [result_evaluate_binary] at h
    cases hleft : left.evaluate.result with
    | error d =>
      rw [hleft] at h
      obtain rfl := Except.error.inj h
      -- the operation that fails is in the left operand
      obtain ⟨before, o, l, r, after, hshows, hwritten⟩ := ihleft hleft
      refine ⟨_, o, l, r, _, hshows.left op right q, fun p => ?_⟩
      rw [written, result_evaluate_binary, hwritten, byteLength_beforeOperator_left,
        ← Nat.add_assoc]
      rfl
    | ok a =>
      rw [hleft] at h
      cases hright : right.evaluate.result with
      | error d =>
        rw [hright] at h
        obtain rfl := Except.error.inj h
        obtain ⟨before, o, l, r, after, hshows, hwritten⟩ := ihright hright
        refine ⟨_, o, l, r, _, hshows.right op left q, fun p => ?_⟩
        rw [written, result_evaluate_binary, evaluate_written_of_ok hleft, hwritten,
          byteLength_beforeOperator_right, ← Nat.add_assoc, ← Nat.add_assoc]
        rfl
      | ok b =>
        rw [hright] at h
        -- both operands have values, so it is the root that fails
        have happly : op.apply a b q = .error err := h
        have hposition : err.position = q := by
          rcases Operator.apply_eq_error happly with ⟨rfl, -⟩ | ⟨rfl, -⟩ <;> rfl
        refine ⟨[], op, left, right, [], hposition ▸ .root _, fun p => ?_⟩
        rw [written, result_evaluate_binary, evaluate_written_of_ok hleft,
          evaluate_written_of_ok hright, byteLength_beforeOperator, byteLength_nil, Nat.zero_add,
          ← Nat.add_assoc]
        have hmove := op.apply_map_position (f := fun _ => p + left.render.utf8ByteSize + 2) a b q
        rw [happly] at hmove
        exact hmove

end Expr

/-! ### Whole texts -/

/-- The text of a tree without negative literals is parsed to the tree that was written. -/
theorem parse_render_of_nonneg {e : Expr}
    (h : ∀ (value : Integer) (q : Nat), .literal value q ∈ e.inorder → 0 ≤ value.toInt)
    (strict : Bool) : parse e.render strict = .ok (e.written 0) := by
  have hrun := Pushdown.advance_readings e.render strict
  rw [readings_eq, advance_append, Pushdown.start, Pushdown.advance_render,
    Expr.firstNegative?_written h] at hrun
  exact (Move.stop.inj hrun).symm

/-- **The text of a tree can be given in place of the text that was parsed.** It is parsed to a tree
that is written in the same way. Both texts have the same value, or they fail with the same kind of
error; the position in the error of the text of the tree is the place where the operator of a
subtree is written, and that subtree is the one whose root has the position in the error of the
first text. -/
theorem evaluate_render_of_parse {text : String} {strict : Bool} {e : Expr}
    (h : parse text strict = .ok e) :
    (∃ d, parse e.render true = .ok d ∧ d.render = e.render) ∧
    ((∃ n, evaluate text strict = .ok n ∧ evaluate e.render true = .ok n) ∨
      ∃ err place, evaluate text strict = .error (.runtime err) ∧
        evaluate e.render true = .error (.runtime (err.mapPosition fun _ => place)) ∧
        (∃ before op left right after,
          e.Shows before (.binary op left right err.position) after) ∧
        ∀ before op left right after,
          e.Shows before (.binary op left right err.position) after →
          place = byteLength (Expr.beforeOperator before left) ∧
          ∃ rest, e.render.toList = Expr.beforeOperator before left ++ op.symbol :: rest) := by
  have hnonneg : ∀ (value : Integer) (q : Nat), .literal value q ∈ e.inorder → 0 ≤ value.toInt := by
    intro value q hnode
    obtain ⟨digits, -, hvalue⟩ := exists_runOfDigits h hnode
    omega
  have hrender := parse_render_of_nonneg hnonneg true
  refine ⟨⟨_, hrender, e.render_written 0⟩, ?_⟩
  rw [evaluate_eq_bind, h, evaluate_eq_bind, hrender]
  simp only [Except.bind]
  cases hvalue : e.evaluate.result with
  | ok n => exact .inl ⟨n, rfl, by rw [Expr.evaluate_written_of_ok hvalue]; rfl⟩
  | error err =>
    obtain ⟨before, op, left, right, after, hshows, hwritten⟩ :=
      Expr.evaluate_written_of_error hvalue
    refine .inr ⟨err, byteLength (Expr.beforeOperator before left), rfl, ?_,
      ⟨before, op, left, right, after, hshows⟩, fun before' op' left' right' after' hshows' => ?_⟩
    · rw [hwritten, Nat.zero_add]
      rfl
    · have hnodup := (pairwise_position_inorder h).imp Nat.ne_of_lt
      obtain ⟨rfl, hsame⟩ := hshows.eq_of_position hnodup hshows' rfl
      cases hsame
      exact ⟨rfl, hshows.exists_toList_render⟩

/-- A quotient by zero with superfluous parentheses, a zero before a literal and more text after its
end. The sign of division stands at the second place of the text, and at the fourth where the tree
is written. -/
theorem evaluate_render_of_parse_quotient :
    parse "1/((4-04)) 7" false =
      .ok (.binary .div (.literal ⟨1, by decide, by decide⟩ 0)
        (.binary .sub (.literal ⟨4, by decide, by decide⟩ 4) (.literal ⟨4, by decide, by decide⟩ 6)
          5) 1) ∧
    evaluate "1/((4-04)) 7" false = .error (.runtime (.divisionByZero 1)) ∧
    evaluate "(1 / (4 - 4))" true = .error (.runtime (.divisionByZero 3)) := by
  have htree : parse "1/((4-04)) 7" false =
      .ok (.binary .div (.literal ⟨1, by decide, by decide⟩ 0)
        (.binary .sub (.literal ⟨4, by decide, by decide⟩ 4) (.literal ⟨4, by decide, by decide⟩ 6)
          5) 1) :=
    ok_of_toOption (by decide +kernel)
  have hzero : evaluate "1/((4-04)) 7" false = .error (.runtime (.divisionByZero 1)) :=
    error_of_error? (by decide +kernel)
  obtain ⟨-, ⟨n, hn, -⟩ | ⟨err, place, herr, hwritten, -, hplace⟩⟩ := evaluate_render_of_parse htree
  · cases hn.symm.trans hzero
  · cases herr.symm.trans hzero
    obtain ⟨rfl, -⟩ := hplace [] .div _ _ [] (.root _)
    exact ⟨htree, hzero, hwritten⟩

end Calculator
