import ReportDescriptor.Unit.Exponent

/-!
# Decimal multipliers

Instead of an exponent a caller may give the power of ten itself, as a floating point number. It
is recognised up to a relative deviation of a billionth, within which no number is near to two
powers.
-/

namespace ReportDescriptor

namespace Multiplier

/-- The product `acc * x ^ n` by repeated squaring. -/
def mulPower (acc x : Float) (n : Nat) : Float :=
  if h : n = 0 then acc
  else mulPower (if n % 2 = 1 then acc * x else acc) (x * x) (n / 2)
termination_by n
decreasing_by omega

/-- A negative power is the reciprocal of a positive one. -/
def powerOfTen (k : Int) : Float :=
  let p := mulPower 1 10 k.natAbs
  if k < 0 then 1 / p else p

def isNear (x : Float) (k : Int) : Bool :=
  (powerOfTen k - x).abs ≤ x * 1e-9

/-- The exponents of all powers of ten that are normal numbers, and of the one just below. -/
def candidates : List Int :=
  (List.range 617).map fun k : Nat => (k : Int) - 308

end Multiplier

/-- The exponent of a multiplier, which has to be a power of ten. -/
def Exponent.ofMultiplier (m : Binary64) : Except Error Exponent :=
  if !m.isFinite || m.isNegative || m.isZero then
    .error (.invalidUnit (.multiplierNotPositive m))
  else
    match Multiplier.candidates.find? (Multiplier.isNear m.toFloat) with
    | none => .error (.invalidUnit (.multiplierNotPower m))
    | some k => ofInt none k

end ReportDescriptor
