import ReportDescriptor.Attribute
import ReportDescriptor.Decimal.Shortest
import ReportDescriptor.Unit.Dimension
import ReportDescriptor.Usage.Basic

/-!
# Faults of a description

Every way in which a description of a descriptor can be at fault, by its cause. The wording of
all of them is `Error.message`.
-/

namespace ReportDescriptor

/-- The settings that have to lie in a range. -/
inductive Quantity
  | packingGranularity
  | fieldSize
  | logicalMaximum
  | physicalMaximum
  | reportCount
  | paddingCount
  | reportId
deriving DecidableEq

def Quantity.label : Quantity → String
  | packingGranularity => "packing granularity"
  | fieldSize => "field size in bits"
  | logicalMaximum => "logical maximum"
  | physicalMaximum => "physical maximum"
  | reportCount => "report count"
  | paddingCount => "padding count"
  | reportId => "report id"

/-- Settings that exclude each other. -/
inductive Conflict
  | logicalRangeAndSentinel
  | sizeAndLogicalRange
  | variableWithUsageRange
  | rangeWithSingleUsage
  | rangeWithCount
  | arrayWithSizeOrRange
  | arrayWithPhysicalRangeOrUnit
  | paddingWithExtras
  | reportKindMismatch
deriving DecidableEq

def Conflict.label : Conflict → String
  | logicalRangeAndSentinel =>
    "a logical range cannot be combined with a maximum-range logical range"
  | sizeAndLogicalRange => "the size of a field with a logical range is derived from that range"
  | variableWithUsageRange => "a variable takes a single usage, not a usage range"
  | rangeWithSingleUsage => "a usage range field cannot also have a single usage"
  | rangeWithCount => "the count of a usage range variable is implied by its usage range"
  | arrayWithSizeOrRange =>
    "the size and logical range of an array are derived from its usage range"
  | arrayWithPhysicalRangeOrUnit => "an array index has no physical range or unit"
  | paddingWithExtras => "padding takes nothing but a size"
  | reportKindMismatch => "a field was built for a different report kind"

/-- What a description cannot do without. -/
inductive Requirement
  | usage
  | usageRange
  | sizeForSentinel
  | sizeOrLogicalRange
  | paddingSize
  | collectionChildren
  | reportChildren
  | applicationReports
  | applications
deriving DecidableEq

def Requirement.label : Requirement → String
  | usage => "usage"
  | usageRange => "usage range"
  | sizeForSentinel => "size in bits for a maximum-range logical range"
  | sizeOrLogicalRange => "size or logical range"
  | paddingSize => "padding size in bits"
  | collectionChildren => "collection children"
  | reportChildren => "report children"
  | applicationReports => "application collection reports"
  | applications => "application collection"

inductive UsageFault
  | spansPages (first last : Usage)
  | notAscending (first last : Usage)
  | unknown (usage first last : Usage)
deriving DecidableEq

def UsageFault.label : UsageFault → String
  | spansPages first last => s!"usage range {first.text}..{last.text} spans two usage pages"
  | notAscending first last =>
    s!"usage range start {first.text} must be less than its end {last.text}"
  | unknown usage first last =>
    s!"usage {usage.text} in range {first.text}..{last.text} is not a known usage"

/-- An exponent without a dimension is that of the value itself. -/
inductive UnitFault
  | exponent (dimension : Option Dimension) (value : Int)
  | multiplierNotPositive (multiplier : Binary64)
  | multiplierNotPower (multiplier : Binary64)
deriving DecidableEq

def UnitFault.label : UnitFault → String
  | exponent dimension value =>
    (dimension.elim "unit" Dimension.label) ++ s!" exponent {value} is outside [-8, 7]"
  | multiplierNotPositive m => s!"unit multiplier {m.text} is not a positive power of ten"
  | multiplierNotPower m => s!"unit multiplier {m.text} is not a power of ten"

/-- What must hold more than padding. -/
inductive Container
  | collection
  | report
deriving DecidableEq

def Container.label : Container → String
  | collection => "collection"
  | report => "report"

inductive Error
  | outOfRange (quantity : Quantity) (value min max : Int)
  | conflict (reason : Conflict)
  | missing (requirement : Requirement)
  | invalidUsage (fault : UsageFault)
  | flagNotAllowed (flag : Attribute) (kind : ReportKind)
  | onlyPadding (container : Container)
  | duplicateReportId (kind : ReportKind) (id : UInt8)
  | invalidUnit (fault : UnitFault)
  /-- A field can only be written as part of a report. -/
  | fieldOutsideReport
  | named (name : String) (source : Error)
deriving DecidableEq

namespace Error

def message : Error → String
  | outOfRange quantity value min max => s!"{quantity.label} {value} is outside [{min}, {max}]"
  | conflict reason => s!"Conflicting settings: {reason.label}"
  | missing requirement => s!"Missing {requirement.label}"
  | invalidUsage fault => s!"Invalid usage: {fault.label}"
  | flagNotAllowed flag kind =>
    s!"The {flag.label} attribute is not allowed for this field in {kind.label} reports"
  | onlyPadding container =>
    s!"A {container.label} must contain at least one field that is not padding"
  | duplicateReportId kind id => s!"Duplicate {kind.label} report id {id.toNat}"
  | invalidUnit fault => s!"Invalid unit: {fault.label}"
  | fieldOutsideReport => "field emitted outside of a report"
  | named name source => s!"{name}: {source.message}"

/-- A fault of a field is reported under the name of the field, if it has one. -/
def under (name : Option String) (e : Error) : Error :=
  name.elim e (.named · e)

/-- Passes if the condition holds. -/
def require (condition : Bool) (e : Error) : Except Error PUnit :=
  if condition then .ok ⟨⟩ else .error e

/-- What must be given, if it is. -/
def demand {α : Type} (requirement : Requirement) (given : Option α) : Except Error α :=
  match given with
  | some a => .ok a
  | none => .error (missing requirement)

theorem require_eq_ok_iff (condition : Bool) (e : Error) :
    require condition e = .ok ⟨⟩ ↔ condition = true := by
  cases condition
  · exact ⟨nofun, nofun⟩
  · exact ⟨fun _ => rfl, fun _ => rfl⟩

theorem demand_eq_ok_iff {α : Type} (requirement : Requirement) (given : Option α) (a : α) :
    demand requirement given = .ok a ↔ given = some a := by
  cases given with
  | none => exact ⟨nofun, nofun⟩
  | some b => rw [demand, Except.ok.injEq, Option.some.injEq]

@[simp] theorem under_none (e : Error) : e.under none = e := rfl

@[simp] theorem under_some (name : String) (e : Error) : e.under (some name) = .named name e := rfl

end Error

end ReportDescriptor
