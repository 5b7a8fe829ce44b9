import ReportDescriptor.Field.Extent
import ReportDescriptor.Flags
import ReportDescriptor.Unit.Basic

/-!
# Data fields

What all fields with a meaning have in common, whichever usages they are for.
-/

namespace ReportDescriptor

structure DataField where
  size : FieldSize
  logical : Extent
  physical : Option Extent
  unit : Option PhysicalUnit
  unitExponent : Option Exponent
  flags : DataFlags
  report : ReportKind
deriving DecidableEq

namespace DataField

/-- Zero to zero stands for a physical extent that is not defined. -/
def undefinedPhysical : Extent := ⟨0, 0⟩

/-- The physical extent as it is written. -/
def declaredPhysical (f : DataField) : Extent :=
  f.physical.getD undefinedPhysical

/-- The physical extent as a host reads it: one that is not defined equals the logical one. -/
def interpretedPhysical (f : DataField) : Extent :=
  if f.declaredPhysical = undefinedPhysical then f.logical else f.declaredPhysical

def withRequested (f : DataField) (w : BitWidth) : DataField :=
  { f with size := { f.size with requested := w } }

end DataField

end ReportDescriptor
