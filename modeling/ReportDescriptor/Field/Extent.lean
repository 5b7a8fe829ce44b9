import ReportDescriptor.Field.Width

/-!
# Extents

The least and the greatest value of a field. A negative minimum makes the field signed. Extents
and widths determine each other: `signed` and `unsigned` are the full extents of a width, and
`minimalWidth` is the least width that holds an extent.
-/

namespace ReportDescriptor

structure Extent where
  min : Int32
  max : Int32
deriving DecidableEq

namespace Extent

@[ext] theorem ext {e f : Extent} (hmin : e.min = f.min) (hmax : e.max = f.max) : e = f := by
  cases e
  cases f
  cases hmin
  cases hmax
  rfl

def ofBounds (quantity : Quantity) (min max : Int32) : Except Error Extent :=
  if min ≤ max then .ok ⟨min, max⟩
  else .error (.outOfRange quantity max.toInt min.toInt 2147483647)

/-- The weight of the highest of so many bits; with a sign it counts negative. -/
def signBit (bits : Nat) : Int :=
  (1 <<< (bits - 1) : Nat)

def signed (w : BitWidth) : Extent :=
  ⟨Int32.ofInt (-signBit w.bits), Int32.ofInt (signBit w.bits - 1)⟩

/-- Hosts read extents as signed words, so 32 bits have no greater maximum than 31. -/
def unsigned (w : BitWidth) : Extent :=
  ⟨0, Int32.ofInt ((1 <<< Min.min w.bits 31 : Nat) - 1)⟩

/-- Whether values of `bits` bits hold all of the extent. -/
def fits (e : Extent) (bits : Nat) : Bool :=
  if e.min < 0 then -signBit bits ≤ e.min.toInt && e.max.toInt < signBit bits
  else e.max.toInt < (1 <<< bits : Nat)

def minimalWidth (e : Extent) : BitWidth :=
  (BitWidth.all.find? fun w => e.fits w.bits).getD .max

end Extent

end ReportDescriptor
