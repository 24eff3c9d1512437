import Calculator.Proofs.Results

/-!
# Evaluation on a stack

An expression can be evaluated by a machine that knows nothing of trees. It goes through the nodes
in postorder and keeps the values that no operator has taken yet on a stack: a literal is put there,
and an operator takes its operands from there and leaves its result in their place. It stops where
an operator cannot be applied.

The machine does the same as evaluation along the tree, whatever is on the stack below and whatever
comes after the nodes of the tree. Only in this generality is it provable by induction, since the
right operand is worked out above the value of the left one, and the root after both.

## Main definitions

* `Application`: an operator that was applied, its operands and the result.
* `StackMachine.step`, `StackMachine.run`: one node, and a list of nodes.

## Main results

* `StackMachine.run_append`: runs compose.
* `StackMachine.run_postorder`: the nodes of an expression put its value on the stack.
* `Expr.evaluate_eq_run`: evaluation is a run of the machine.
-/

namespace Calculator

open Calculator.Expr (Node)

/-- An operator that was applied to its operands with success. -/
structure Application where
  op : Operator
  left : Number
  right : Number
  result : Number
  deriving DecidableEq

/-- The event that records an application. -/
def Application.event (a : Application) : Event := .applied a.op a.left a.right a.result

namespace StackMachine

/-- Why the machine stops before it has gone through all nodes. -/
inductive Fault where
  /-- An operator cannot be applied to its operands. -/
  | failed (cause : RuntimeError)
  /-- There are no two operands on the stack. -/
  | underflow
  deriving DecidableEq

/-- The stack after a node, with its top first, and the application that was made. The operand on
top is the right one. -/
def step : Node → List Number → Except Fault (List Number × Option Application)
  | .literal value _, stack => .ok (.integer value :: stack, none)
  | .operation op p, right :: left :: stack =>
    match op.apply left right p with
    | .ok result => .ok (result :: stack, some ⟨op, left, right, result⟩)
    | .error e => .error (.failed e)
  | .operation _ _, _ => .error .underflow

/-- What a run comes to. -/
structure Run where
  /-- The stack at the end, or why the end was not reached. -/
  ending : Except Fault (List Number)
  /-- The applications that were made, in order. -/
  applications : List Application

/-- A run, and another one from the stack that it left. -/
def Run.andThen (r : Run) (f : List Number → Run) : Run :=
  match r.ending with
  | .ok stack => ⟨(f stack).ending, r.applications ++ (f stack).applications⟩
  | .error fault => ⟨.error fault, r.applications⟩

/-- Goes through nodes one after the other. -/
def run : List Node → List Number → Run
  | [], stack => ⟨.ok stack, []⟩
  | node :: nodes, stack =>
    match step node stack with
    | .ok (stack, made) =>
      let others := run nodes stack
      ⟨others.ending, made.toList ++ others.applications⟩
    | .error fault => ⟨.error fault, []⟩

/-- **Runs compose.** -/
theorem run_append (nodes others : List Node) (stack : List Number) :
    run (nodes ++ others) stack = (run nodes stack).andThen (run others) := by
  induction nodes generalizing stack with
  | nil => simp [run, Run.andThen]
  | cons node nodes ih =>
    simp only [List.cons_append, run]
    rcases step node stack with fault | ⟨after, made⟩
    · simp [Run.andThen]
    · simp only [ih after, Run.andThen]
      split <;> simp [*]

/-- How a computation of a value ends on a stack: the value is put there. -/
def onStack (stack : List Number) : Except RuntimeError Number → Except Fault (List Number)
  | .ok value => .ok (value :: stack)
  | .error e => .error (.failed e)

/-- A run does what a computation does: it ends with the value of the computation on the stack, or
with its error, and makes the applications that the computation records. -/
def Run.Performs (r : Run) (x : Logged RuntimeError Number) (stack : List Number) : Prop :=
  r.ending = onStack stack x.result ∧ r.applications.map Application.event = x.log

/-- One operator, with its operands on the stack. -/
theorem run_operation (op : Operator) (left right : Number) (p : Nat) (stack : List Number) :
    (run [.operation op p] (right :: left :: stack)).Performs (op.applyLogged left right p)
      stack := by
  simp only [run, step, Operator.applyLogged]
  cases op.apply left right p <;> simp [Run.Performs, onStack, Application.event, Logged.error]

/-- Two computations one after the other are performed by two runs one after the other, the second
above the value of the first. -/
theorem Run.Performs.andThen {r : Run} {x : Logged RuntimeError Number} {stack : List Number}
    {f : List Number → Run} {g : Number → Logged RuntimeError Number} (hr : r.Performs x stack)
    {below : List Number} (hf : ∀ value, (f (value :: stack)).Performs (g value) below) :
    (r.andThen f).Performs (x >>= g) below := by
  obtain ⟨hending, happlications⟩ := hr
  cases hx : x.result with
  | ok value =>
    obtain ⟨hending', happlications'⟩ := hf value
    rw [hx] at hending
    refine ⟨?_, ?_⟩
    · rw [Logged.result_bind, hx]
      simp [Run.andThen, hending, onStack, hending', Except.bind]
    · rw [Logged.log_bind_of_ok hx]
      simp [Run.andThen, hending, onStack, happlications, happlications']
  | error e =>
    rw [hx] at hending
    refine ⟨?_, ?_⟩
    · rw [Logged.result_bind, hx]
      simp [Run.andThen, hending, onStack, Except.bind]
    · rw [Logged.log_bind_of_error hx]
      simp [Run.andThen, hending, onStack, happlications]

/-- **The nodes of an expression put its value on the stack**, above whatever is there. -/
theorem run_postorder (e : Expr) (stack : List Number) :
    (run e.postorder stack).Performs e.evaluate stack := by
  induction e generalizing stack with
  | literal value p => exact ⟨rfl, rfl⟩
  | binary op left right p ihleft ihright =>
    rw [Expr.postorder, List.append_assoc, run_append, Expr.evaluate]
    refine (ihleft stack).andThen fun a => ?_
    rw [run_append]
    refine (ihright (a :: stack)).andThen fun b => ?_
    exact run_operation op a b p stack

end StackMachine

/-- **Evaluation is a run of the stack machine** over the nodes in postorder, from the empty stack.
Where evaluating gives a value, the machine ends with this value alone on the stack; where it gives
an error, the machine stops with this error; and the machine never lacks an operand. What evaluating
records are the applications that the machine makes, in order. -/
theorem Expr.evaluate_eq_run (e : Expr) :
    (∀ value, e.evaluate.result = .ok value ↔
      (StackMachine.run e.postorder []).ending = .ok [value]) ∧
    (∀ cause, e.evaluate.result = .error cause ↔
      (StackMachine.run e.postorder []).ending = .error (.failed cause)) ∧
    (StackMachine.run e.postorder []).ending ≠ .error .underflow ∧
    e.evaluate.log = (StackMachine.run e.postorder []).applications.map Application.event := by
  obtain ⟨hending, happlications⟩ := StackMachine.run_postorder e []
  rw [hending]
  refine ⟨fun value => ?_, fun cause => ?_, ?_, happlications.symm⟩ <;>
    cases e.evaluate.result <;> simp [StackMachine.onStack]

/-- The product is worked out before the quotient fails, and the sum is not reached. -/
example : (StackMachine.run (Expr.binary .add
      (.binary .mul (.literal ⟨2, by decide, by decide⟩ 0) (.literal ⟨3, by decide, by decide⟩ 2) 1)
      (.binary .div (.literal ⟨1, by decide, by decide⟩ 4) (.literal ⟨0, by decide, by decide⟩ 6) 5)
      3).postorder []).applications.map Application.op = [.mul] := by decide +kernel

end Calculator
