import ReportDescriptor.Field.Spec

/-!
# Building fields

A specification either becomes a field of a report or is refused for the first fault found. The
faults of a named field are reported under its name.
-/

namespace ReportDescriptor

/-- What all fields of a descriptor are built with. -/
structure BuildContext where
  packing : Packing := .tight
  usages : UsageTable := UsageTable.everything

def Variable.build (s : FieldSpec) (report : ReportKind) (ctx : BuildContext) :
    Except Error Variable := do
  Error.require s.usageRange.isNone (.conflict .variableWithUsageRange)
  let usage ← Error.demand .usage s.usage
  let count ← s.fieldCount
  let field ← s.dataField ctx.packing report
  return ⟨usage, count, field⟩

namespace VariableRange

/-- A range may hold one usage more than a field may have values. -/
def ofUsages (usages : UsageRange) (field : Except Error DataField) : Except Error VariableRange :=
  if h : usages.count ≤ 65535 then (⟨usages, h, ·⟩) <$> field
  else .error (.outOfRange .reportCount usages.count 1 65535)

def build (s : FieldSpec) (report : ReportKind) (ctx : BuildContext) :
    Except Error VariableRange := do
  let usages ← s.usages
  Error.require s.count.isNone (.conflict .rangeWithCount)
  ofUsages usages (s.dataField ctx.packing report)

end VariableRange

namespace Selection

/-- The least width that holds all indices, which start at one. -/
def indexWidth (usages : UsageRange) : BitWidth where
  bits := usages.count.log2 + 1
  one_le := Nat.le_add_left 1 _
  le_max := by
    have hpos := usages.two_le_count
    have hle := usages.count_le
    have hlog := (Nat.log2_lt (n := usages.count) (k := 17) (by omega)).2 (by omega)
    omega

def indices (usages : UsageRange) : Extent :=
  ⟨1, Int32.ofNat usages.count⟩

def build (s : FieldSpec) (report : ReportKind) (ctx : BuildContext) :
    Except Error Selection := do
  let usages ← s.usages
  Error.require (s.size.isNone && s.logical.isNone && s.sentinel.isNone)
    (.conflict .arrayWithSizeOrRange)
  Error.require (s.physical.isNone && s.unit.isNone && s.unitExponent.isNone)
    (.conflict .arrayWithPhysicalRangeOrUnit)
  usages.ensureKnown ctx.usages
  let count ← s.fieldCount
  let flags := s.flags.getD {}
  flags.validate report .array
  return {
    usages, count
    field := {
      size := ⟨indexWidth usages, ctx.packing⟩
      logical := indices usages
      physical := none
      unit := none
      unitExponent := none
      flags, report } }

end Selection

namespace Leaf

/-- Padding takes a size, and a count only if that is one. -/
def buildPadding (s : FieldSpec) : Except Error BitWidth := do
  Error.require
    (s.usage.isNone && s.usageRange.isNone && s.logical.isNone && s.sentinel.isNone &&
      s.physical.isNone && s.flags.isNone && s.unit.isNone && s.unitExponent.isNone)
    (.conflict .paddingWithExtras)
  let count := s.count.getD 1
  Error.require (count = 1) (.outOfRange .paddingCount count 1 1)
  let bits ← Error.demand .paddingSize s.size
  BitWidth.ofNat bits

def buildUnnamed (s : FieldSpec) (report : ReportKind) (ctx : BuildContext) : Except Error Leaf :=
  match s.kind with
  | .single => .single <$> Variable.build s report ctx
  | .range => .range <$> VariableRange.build s report ctx
  | .array => .array <$> Selection.build s report ctx
  | .padding => .padding <$> buildPadding s

def build (s : FieldSpec) (report : ReportKind) (ctx : BuildContext) : Except Error Leaf :=
  (buildUnnamed s report ctx).mapError (.under s.name)

end Leaf

end ReportDescriptor
