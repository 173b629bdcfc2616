import Condense.Strategy

/-!
# Options of the pass
-/

namespace Condense

set_option autoImplicit false

structure Options where
  /-- The most rounds spent on one condition. -/
  maxIterations : UInt64 := 8
  strategy : Strategy := .standard
  /-- Whether the operands of `&&` and `||` are proven one by one. -/
  foldOperands : Bool := true
  deriving DecidableEq

end Condense
