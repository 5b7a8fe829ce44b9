import ReportDescriptor.Decimal.Binary64

/-!
# Shortest decimals

Among the decimals that read back as a given binary number the one with the fewest digits is
chosen, and the nearest one if there are several. For each number of digits only the two
neighbours of the number on the grid of that many digits need to be looked at, and all
comparisons are made between natural numbers.
-/

namespace ReportDescriptor

/-- The number `digits * 10 ^ exponent`. -/
structure Decimal where
  digits : Nat
  exponent : Int
deriving DecidableEq

namespace Decimal

/-- `a * 10 ^ i` and `n * 2 ^ j`, both multiplied by what makes them natural numbers. -/
def commonScale (a : Nat) (i : Int) (n : Nat) (j : Int) : Nat × Nat :=
  ((a * Nat.pow 10 i.toNat) <<< (-j).toNat, (n * Nat.pow 10 (-i).toNat) <<< j.toNat)

/-- Whether `d` is nearer to the magnitude of `x` than to those of its neighbours; halfway
points go to the even significand. -/
def readsBackAs (d : Decimal) (x : Binary64) : Bool :=
  let m := 4 * x.significand
  let low := commonScale d.digits d.exponent (m - if x.isNarrowBelow then 1 else 2) (x.power - 2)
  let high := commonScale d.digits d.exponent (m + 2) (x.power - 2)
  if x.significand % 2 = 0 then low.2 ≤ low.1 && high.1 ≤ high.2
  else low.2 < low.1 && high.1 < high.2

/-- The largest multiple of `10 ^ i` that is not above the magnitude of `x`, in that unit. -/
def below (x : Binary64) (i : Int) : Nat :=
  (x.significand * Nat.pow 10 (-i).toNat) <<< x.power.toNat /
    (Nat.pow 10 i.toNat <<< (-x.power).toNat)

/-- The exponent of the first digit of `x`, which lies between -324 and 308. -/
def leadingExponent (x : Binary64) : Int :=
  let exponents := (List.range 633).map fun k : Nat => (308 : Int) - k
  (exponents.find? fun i => 0 < below x i).getD (-324)

/-- Whether the magnitude of `x` is below the middle between `a * 10 ^ i` and its successor. -/
def isBelowMiddle (x : Binary64) (a : Nat) (i : Int) : Bool :=
  let c := commonScale (2 * a + 1) i (2 * x.significand) x.power
  c.2 < c.1

/-- The nearest number on the grid of `n` digits that reads back as `x`; the middle between two
goes up. -/
def onGrid? (x : Binary64) (n : Nat) : Option Decimal :=
  let i := leadingExponent x - (n - 1 : Nat)
  let a := below x i
  match (Decimal.mk a i).readsBackAs x, (Decimal.mk (a + 1) i).readsBackAs x with
  | true, true => some ⟨if isBelowMiddle x a i then a else a + 1, i⟩
  | true, false => some ⟨a, i⟩
  | false, true => some ⟨a + 1, i⟩
  | false, false => none

/-- Moves trailing zeros, at most `fuel` of them, into the exponent. -/
def stripZeros : Nat → Decimal → Decimal
  | 0, d => d
  | fuel + 1, d =>
    if d.digits ≠ 0 ∧ d.digits % 10 = 0 then stripZeros fuel ⟨d.digits / 10, d.exponent + 1⟩
    else d

/-- The exact value of a binary number, which has a decimal form because 2 divides 10. -/
def exact (x : Binary64) : Decimal :=
  ⟨(x.significand * Nat.pow 5 (-x.power).toNat) <<< x.power.toNat, min x.power 0⟩

/-- Seventeen digits always suffice; the exact value stands behind the search. -/
def shortest (x : Binary64) : Decimal :=
  stripZeros 17 (((List.range' 1 17).findSome? (onGrid? x)).getD (exact x))

/-- Positional notation without an exponent and without a point after a whole number. -/
def text (d : Decimal) : String :=
  let ds := Nat.toDigits 10 d.digits
  let zeros := fun n : Nat => List.replicate n '0'
  let places := (-d.exponent).toNat
  String.ofList <|
    if places = 0 then ds ++ zeros d.exponent.toNat
    else if places < ds.length then
      let whole := ds.length - places
      ds.take whole ++ '.' :: ds.drop whole
    else '0' :: '.' :: zeros (places - ds.length) ++ ds

end Decimal

/-- The sign is written for zero and infinity too, but not for NaN. -/
def Binary64.text (x : Binary64) : String :=
  if x.isNaN then "NaN"
  else
    let magnitude :=
      if !x.isFinite then "inf" else if x.isZero then "0" else (Decimal.shortest x).text
    if x.isNegative then "-" ++ magnitude else magnitude

example : (Binary64.mk 0x3fb999999999999a).text = "0.1" := by decide +kernel
example : (Binary64.mk 0x8000000000000000).text = "-0" := by decide +kernel
example : (Binary64.mk 0x3e60000000000000).text = "0.000000029802322387695313" := by decide +kernel
example : (Binary64.mk 0x44b52d02c7e14af6).text = "100000000000000000000000" := by decide +kernel
example : (Binary64.mk 0xfff0000000000000).text = "-inf" := by decide +kernel

end ReportDescriptor
