/-!
# Binary floating point numbers

A number in the 64-bit binary interchange format is kept as its bit pattern, so that equality is
decidable. Away from infinity and NaN its magnitude is `significand * 2 ^ power`, exactly.
-/

namespace ReportDescriptor

structure Binary64 where
  bits : UInt64
deriving DecidableEq

namespace Binary64

variable (x : Binary64)

def isNegative : Bool :=
  x.bits.toNat >>> 63 = 1

def biasedExponent : Nat :=
  (x.bits.toNat >>> 52) % 2048

def fraction : Nat :=
  x.bits.toNat % (1 <<< 52)

def isFinite : Bool :=
  x.biasedExponent ≠ 2047

def isNaN : Bool :=
  x.biasedExponent = 2047 ∧ x.fraction ≠ 0

def isZero : Bool :=
  x.biasedExponent = 0 ∧ x.fraction = 0

/-- Subnormal numbers lack the leading bit. -/
def significand : Nat :=
  if x.biasedExponent = 0 then x.fraction else (1 <<< 52) + x.fraction

def power : Int :=
  if x.biasedExponent = 0 then -1074 else x.biasedExponent - 1075

/-- At a power of two the next number towards zero is only half as far away as the other one. -/
def isNarrowBelow : Bool :=
  x.fraction = 0 ∧ 1 < x.biasedExponent

def toFloat : Float :=
  Float.ofBits x.bits

end Binary64

end ReportDescriptor
