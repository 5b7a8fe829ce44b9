import ReportDescriptor.Usage.Basic

/-!
# Usage kinds

The usage tables document which kinds of control or data a usage may be applied to. The kinds
travel with a usage, into all that is built from it, as a remark of whoever looked it up. They do
not count when usages are compared, and neither when fields, reports or descriptors are.
-/

namespace ReportDescriptor

inductive UsageKind
  | linearControl
  | onOffControl
  | momentaryControl
  | oneShotControl
  | reTriggerControl
  | selector
  | staticValue
  | staticFlag
  | dynamicValue
  | dynamicFlag
  | namedArray
  | collectionApplication
  | collectionLogical
  | collectionPhysical
  | usageSwitch
  | usageModifier
  | bufferedBytes
deriving DecidableEq

namespace UsageKind

def all : List UsageKind :=
  [.linearControl, .onOffControl, .momentaryControl, .oneShotControl, .reTriggerControl,
    .selector, .staticValue, .staticFlag, .dynamicValue, .dynamicFlag, .namedArray,
    .collectionApplication, .collectionLogical, .collectionPhysical, .usageSwitch,
    .usageModifier, .bufferedBytes]

theorem mem_all (k : UsageKind) : k ∈ all := by
  cases k <;> decide

end UsageKind

/-- A usage and the kinds it is documented for. -/
structure DocumentedUsage extends Usage where
  kinds : List UsageKind := []
deriving DecidableEq

namespace DocumentedUsage

instance : BEq DocumentedUsage := ⟨fun u v => u.value == v.value⟩

instance : LE DocumentedUsage := ⟨fun u v => u.value ≤ v.value⟩

instance (u v : DocumentedUsage) : Decidable (u ≤ v) :=
  inferInstanceAs (Decidable (u.value ≤ v.value))

/-- Ascending by value. -/
def sort (us : List DocumentedUsage) : List DocumentedUsage :=
  us.mergeSort (· ≤ ·)

/-- Kinds form a set: they are kept once each and in the order of `UsageKind.all`. -/
def withKinds (u : DocumentedUsage) (kinds : List UsageKind) : DocumentedUsage :=
  { u with kinds := UsageKind.all.filter (kinds.contains ·) }

theorem mem_withKinds (u : DocumentedUsage) (kinds : List UsageKind) (k : UsageKind) :
    k ∈ (u.withKinds kinds).kinds ↔ k ∈ kinds := by
  simp [withKinds, UsageKind.mem_all]

theorem beq_def (u v : DocumentedUsage) : (u == v) = (u.value == v.value) := rfl

theorem beq_iff {u v : DocumentedUsage} : (u == v) = true ↔ u.toUsage = v.toUsage := by
  rw [beq_def, beq_iff_eq]
  exact ⟨Usage.value_inj, congrArg Usage.value⟩

end DocumentedUsage

end ReportDescriptor
