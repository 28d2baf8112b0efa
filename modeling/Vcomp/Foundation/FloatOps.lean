import Mathlib.Algebra.Order.Ring.Rat

/-- What the floating-point types of different languages share. -/
structure FloatOps (F : Type) where
  lit : ℚ → F
  add : F → F → F
  mul : F → F → F
  lt : F → F → Bool

namespace FloatOps

def rational : FloatOps ℚ := ⟨id, (· + ·), (· * ·), fun x y => decide (x < y)⟩

end FloatOps
