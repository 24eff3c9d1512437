import Mathlib.Data.List.Induction
import Mathlib.Data.List.TakeWhile
import Mathlib.Data.Nat.Digits.Defs

/-!
# Runs of digits

The digits of a number are written without a sign, and they end where something else begins. Their
value is a sum with one term for each digit; reading them one after the other gives it as well.

## Main definitions

* `EndsDigits`: a text that does not go on with digits.
* `decimalValue`: the value of a run of digits.

## Main results

* `toDigits_append_cancel`: where the digits of a number end.
* `ofDigitChars_eq_decimalValue`: reading digits one after the other gives their value.
-/

namespace Calculator

/-- Nothing but digits is written for a number. -/
theorem notMem_toDigits {c : Char} (hc : c.isDigit = false) (n : Nat) : c ∉ Nat.toDigits 10 n := by
  intro h
  rw [Nat.isDigit_of_mem_toDigits (by decide) (by decide) h] at hc
  cases hc

/-! ### Where digits end -/

/-- The text does not begin with a digit, so that digits before it end there. -/
def EndsDigits (cs : List Char) : Prop := ∀ c ∈ cs.head?, c.isDigit = false

theorem endsDigits_nil : EndsDigits [] := nofun

theorem endsDigits_cons {c : Char} (h : c.isDigit = false) (cs : List Char) :
    EndsDigits (c :: cs) := by
  intro d hd
  obtain rfl : c = d := by simpa using hd
  exact h

/-- Digits end where something else begins. -/
theorem takeWhile_isDigit_append {xs us : List Char} (hxs : ∀ c ∈ xs, c.isDigit = true)
    (hus : EndsDigits us) : (xs ++ us).takeWhile Char.isDigit = xs := by
  rw [List.takeWhile_append_of_pos hxs]
  rcases us with _ | ⟨c, us⟩
  · simp
  · rw [List.takeWhile_cons_of_neg (by simp [hus c rfl]), List.append_nil]

/-- **Where the digits of a number end.** -/
theorem toDigits_append_cancel {m n : Nat} {us vs : List Char} (hus : EndsDigits us)
    (hvs : EndsDigits vs) (h : Nat.toDigits 10 m ++ us = Nat.toDigits 10 n ++ vs) :
    m = n ∧ us = vs := by
  have htake := congrArg (List.takeWhile Char.isDigit) h
  rw [takeWhile_isDigit_append (fun _ => Nat.isDigit_of_mem_toDigits (by decide) (by decide)) hus,
    takeWhile_isDigit_append (fun _ => Nat.isDigit_of_mem_toDigits (by decide) (by decide)) hvs]
    at htake
  rw [htake] at h
  have hvalue := congrArg (fun cs => Nat.ofDigitChars 10 cs 0) htake
  simp only [Nat.ofDigitChars_ten_toDigits] at hvalue
  exact ⟨hvalue, List.append_cancel_left h⟩

/-- The digits of a number begin with a digit. -/
theorem toDigits_append_ne_cons {n : Nat} {c : Char} (hc : c.isDigit = false)
    (us vs : List Char) : Nat.toDigits 10 n ++ us ≠ c :: vs := by
  intro h
  obtain ⟨d, ds, hdigits⟩ := List.exists_cons_of_ne_nil (Nat.toDigits_ne_nil (n := n) (b := 10))
  rw [hdigits, List.cons_append] at h
  refine notMem_toDigits hc n ?_
  rw [hdigits, (List.cons.inj h).1]
  exact List.mem_cons_self

theorem toDigits_ne_cons {c : Char} (hc : c.isDigit = false) (n : Nat) (cs : List Char) :
    Nat.toDigits 10 n ≠ c :: cs := by
  rw [← List.append_nil (Nat.toDigits 10 n)]
  exact toDigits_append_ne_cons hc [] cs

/-! ### The value of digits -/

/-- The value of a run of digits: each counts ten to the number of digits after it. -/
def decimalValue (digits : List Char) : Nat :=
  Nat.ofDigits 10 (digits.reverse.map fun d => d.toNat - '0'.toNat)

theorem decimalValue_concat (digits : List Char) (d : Char) :
    decimalValue (digits ++ [d]) = 10 * decimalValue digits + (d.toNat - '0'.toNat) := by
  rw [decimalValue, List.reverse_append, List.reverse_singleton, List.singleton_append,
    List.map_cons, Nat.ofDigits_cons, decimalValue, Nat.add_comm]

/-- **Reading digits one after the other** gives their value. -/
theorem ofDigitChars_eq_decimalValue (digits : List Char) :
    Nat.ofDigitChars 10 digits 0 = decimalValue digits := by
  induction digits using List.reverseRecOn with
  | nil => rfl
  | append_singleton digits d ih =>
    rw [Nat.ofDigitChars_append, Nat.ofDigitChars_cons, Nat.ofDigitChars_nil, ih,
      decimalValue_concat]

end Calculator
