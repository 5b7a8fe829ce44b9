import ReportDescriptor.Field.Leaf

/-!
# Field specifications

A specification may carry any combination of settings. Whether they make sense together is
decided when a field is built from them. The name serves messages only.
-/

namespace ReportDescriptor

inductive FieldKind
  | single
  | range
  | array
  | padding
deriving DecidableEq

/-- A logical extent given as the full extent of the size. -/
inductive Sentinel
  | signed
  | unsigned
deriving DecidableEq

def Sentinel.extent : Sentinel → BitWidth → Extent
  | signed => Extent.signed
  | unsigned => Extent.unsigned

structure FieldSpec where
  kind : FieldKind
  name : Option String := none
  usage : Option DocumentedUsage := none
  usageRange : Option (DocumentedUsage × DocumentedUsage) := none
  size : Option Nat := none
  logical : Option (Int32 × Int32) := none
  sentinel : Option Sentinel := none
  physical : Option (Int32 × Int32) := none
  count : Option Nat := none
  flags : Option DataFlags := none
  unit : Option PhysicalUnit := none
  unitExponent : Option Exponent := none
deriving DecidableEq

namespace FieldSpec

variable (s : FieldSpec)

/-- The width follows from the logical extent or the other way round. -/
def widthAndLogical : Except Error (BitWidth × Extent) :=
  match s.size, s.logical, s.sentinel with
  | _, some _, some _ => .error (.conflict .logicalRangeAndSentinel)
  | some _, some _, none => .error (.conflict .sizeAndLogicalRange)
  | none, none, some _ => .error (.missing .sizeForSentinel)
  | none, none, none => .error (.missing .sizeOrLogicalRange)
  | some bits, none, none => do
    let w ← BitWidth.ofNat bits
    return (w, .signed w)
  | none, some (min, max), none => do
    let e ← Extent.ofBounds .logicalMaximum min max
    return (e.minimalWidth, e)
  | some bits, none, some sentinel => do
    let w ← BitWidth.ofNat bits
    return (w, sentinel.extent w)

def physicalExtent : Except Error (Option Extent) :=
  match s.physical with
  | none => .ok none
  | some (min, max) => some <$> Extent.ofBounds .physicalMaximum min max

def dataField (packing : Packing) (report : ReportKind) : Except Error DataField := do
  let (width, logical) ← s.widthAndLogical
  let physical ← s.physicalExtent
  let flags := s.flags.getD {}
  flags.validate report .variables
  return {
    size := ⟨width, packing⟩
    logical, physical, flags, report
    unit := s.unit
    unitExponent := s.unitExponent }

def fieldCount : Except Error FieldCount :=
  FieldCount.ofNat (s.count.getD 1)

def usages : Except Error UsageRange := do
  Error.require s.usage.isNone (.conflict .rangeWithSingleUsage)
  let (first, last) ← Error.demand .usageRange s.usageRange
  UsageRange.ofEnds first last

end FieldSpec

end ReportDescriptor
