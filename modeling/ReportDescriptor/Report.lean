import ReportDescriptor.Layout.Basic

/-!
# Reports

A report owns its fields, which are laid out when the report is built. Its data follow one byte
with the report id.
-/

namespace ReportDescriptor

structure Report where
  kind : ReportKind
  id : UInt8
  children : FieldForest
deriving DecidableEq, BEq

namespace Report

/-- The fields have to be built for reports of this kind, and to be more than padding. -/
def build (kind : ReportKind) (id : UInt8) (children : FieldForest) : Logged Report := do
  if id = 0 then
    Logged.ofExcept (.error (.outOfRange .reportId 0 1 255))
  else if children.isEmpty then
    Logged.ofExcept (.error (.missing .reportChildren))
  else if children.leaves.any fun l => l.report?.any (· ≠ kind) then
    Logged.ofExcept (.error (.conflict .reportKindMismatch))
  else
    let laidOut := layout children
    Logged.write (.layingOut kind id :: laidOut.1)
    if laidOut.2.isOnlyPadding then
      Logged.ofExcept (.error (.onlyPadding .report))
    else
      return ⟨kind, id, laidOut.2⟩

variable (r : Report)

def leaves : List Leaf :=
  r.children.leaves

def bits : Nat :=
  r.children.bits

def rawBits : Nat :=
  r.children.rawBits

/-- The length on the wire, the id included. -/
def sizeInBytes : Nat :=
  r.bits / 8 + 1

end Report

end ReportDescriptor
