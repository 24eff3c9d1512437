/-!
# Powers

The program raises numbers to natural numbers, with the power that comes with the numbers. Algebra
has a power for every monoid, which is the same on these numbers but is another term. In the scope
`Powers` the former goes first, so that a definition is the same term whether algebra is loaded or
not. Literal exponents have their type written out there, since what an exponent without a type is
taken for depends on what is loaded, too.

Theorems open the scope only where they take such a definition apart with an exponent that is not a
literal. Elsewhere their powers are those of algebra.
-/

namespace Calculator.Powers

attribute [scoped instance (2000)] instPowNat

end Calculator.Powers
