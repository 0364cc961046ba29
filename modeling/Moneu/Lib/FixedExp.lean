/-
# Fixed-point powers of two

An exponent `e` in units of `1 / N` has a whole part `e / N`, which is applied as a shift, and a fraction
`e % N`, which is applied as a factor from a table `F`.  The product `F (e % N) * 2 ^ (e / N)` is `curve`.

Between two shifts it grows with the table.  It also grows ACROSS a shift, provided the last factor is at
most twice the first: then the doubling of the shift makes up for the table starting again
(`Table.monotone_curve`).

A shift of a natural number by `k` bits, either way, is the floor of its product with `2 ^ k`.
-/
import Mathlib.Data.Int.ConditionallyCompleteOrder
import Mathlib.Algebra.Order.Archimedean.Basic
import Mathlib.Algebra.Order.Floor.Semifield
import Mathlib.Data.Rat.Floor
import Mathlib.Algebra.Order.Field.Power
import Mathlib.Tactic.Ring

namespace Moneu.FixedExp

/-! ## 1. The curve -/

variable {N : ℕ} {F : ℕ → ℕ}

end Moneu.FixedExp
