import ReportDescriptor.Field.Data
import ReportDescriptor.Usage.Range

/-!
# Fields

The leaves of a report: variables with one usage, variables with one value for each usage of a
range, arrays of indices into a range, and padding.
-/

namespace ReportDescriptor

/-- A single usage, of which there are `count` values. -/
structure Variable where
  usage : DocumentedUsage
  count : FieldCount
  field : DataField
deriving DecidableEq, BEq

namespace Variable

/-- Two single values that differ in nothing but the usage id and, below the same adjusted size,
the requested one. Such neighbours can share a main item. -/
def combinableWith (v w : Variable) : Bool :=
  v.count = .one && w.count = .one &&
    v.usage.page = w.usage.page &&
    v.field.size.adjusted = w.field.size.adjusted &&
    { v.field with size := w.field.size } = w.field

end Variable

/-- One value for each usage of a range. -/
@[ext] structure VariableRange where
  usages : UsageRange
  count_le : usages.count ≤ 65535
  field : DataField
deriving DecidableEq

namespace VariableRange

instance : BEq VariableRange := ⟨fun v w => v.usages == w.usages && v.field == w.field⟩

def count (v : VariableRange) : FieldCount :=
  ⟨v.usages.count, Nat.le_trans (by omega) v.usages.two_le_count, v.count_le⟩

end VariableRange

/-- `count` indices into a range of usages; index zero selects none. -/
structure Selection where
  usages : UsageRange
  count : FieldCount
  field : DataField
deriving DecidableEq, BEq

inductive Leaf
  | single (v : Variable)
  | range (v : VariableRange)
  | array (s : Selection)
  | padding (width : BitWidth)
deriving DecidableEq, BEq

namespace Leaf

def isPadding : Leaf → Bool
  | padding _ => true
  | _ => false

def count : Leaf → FieldCount
  | single v => v.count
  | range v => v.count
  | array s => s.count
  | padding _ => .one

/-- Padding is never packed: it is there to reach an exact position. -/
def size : Leaf → FieldSize
  | single v => v.field.size
  | range v => v.field.size
  | array s => s.field.size
  | padding w => ⟨w, .tight⟩

def data? : Leaf → Option DataField
  | single v => some v.field
  | range v => some v.field
  | array s => some s.field
  | padding _ => none

/-- Padding fits into any report. -/
def report? (l : Leaf) : Option ReportKind :=
  l.data?.map DataField.report

def grouping : Leaf → Grouping
  | array _ => .array
  | _ => .variables

def flags (l : Leaf) : DataFlags :=
  l.data?.elim .padding DataField.flags

/-- The bits of all values together, as they lie in the report. -/
def bits (l : Leaf) : Nat :=
  l.count.value * l.size.adjusted

/-- The bits of all values together, as they were asked for. -/
def rawBits (l : Leaf) : Nat :=
  l.count.value * l.size.requested.bits

def withRequested (l : Leaf) (w : BitWidth) : Leaf :=
  match l with
  | single v => single { v with field := v.field.withRequested w }
  | range v => range { v with field := v.field.withRequested w }
  | array s => array { s with field := s.field.withRequested w }
  | padding _ => padding w

@[simp] theorem bits_padding (w : BitWidth) : (padding w).bits = w.bits := by
  simp [bits, count, size, FieldCount.one]

theorem one_le_bits (l : Leaf) : 1 ≤ l.bits :=
  Nat.mul_le_mul l.count.one_le
    (Nat.le_trans l.size.requested.one_le l.size.requested_le_adjusted)

@[simp] theorem withRequested_requested (l : Leaf) : l.withRequested l.size.requested = l := by
  cases l <;> rfl

@[simp] theorem isPadding_withRequested (l : Leaf) (w : BitWidth) :
    (l.withRequested w).isPadding = l.isPadding := by
  cases l <;> rfl

@[simp] theorem count_withRequested (l : Leaf) (w : BitWidth) :
    (l.withRequested w).count = l.count := by
  cases l <;> rfl

@[simp] theorem report?_withRequested (l : Leaf) (w : BitWidth) :
    (l.withRequested w).report? = l.report? := by
  cases l <;> rfl

@[simp] theorem size_withRequested (l : Leaf) (w : BitWidth) :
    (l.withRequested w).size = { l.size with requested := w } := by
  cases l <;> rfl

theorem data?_eq_none_iff (l : Leaf) : l.data? = none ↔ l.isPadding = true := by
  cases l <;> simp [data?, isPadding]

end Leaf

end ReportDescriptor
