import ReportDescriptor.CollectionType
import ReportDescriptor.Field.Leaf
import ReportDescriptor.Forest.Basic

/-!
# Collections

Inside a report the fields are the leaves of a forest whose inner nodes are collections.
Collections have no influence on the data of the report.
-/

namespace ReportDescriptor

structure Collection where
  kind : CollectionKind
  usage : DocumentedUsage
deriving DecidableEq, BEq

abbrev FieldForest := Forest Collection Leaf

namespace FieldForest

variable (f : FieldForest)

/-- The bits of all fields as they lie in the report. -/
def bits : Nat :=
  total Leaf.bits f.leaves

/-- The bits of all fields as they were asked for. -/
def rawBits : Nat :=
  total Leaf.rawBits f.leaves

def isOnlyPadding : Bool :=
  f.leaves.all Leaf.isPadding

end FieldForest

/-- A collection has children, not all of them padding. -/
def Collection.build (c : Collection) (children : FieldForest) : Except Error FieldForest :=
  if children.isEmpty then .error (.missing .collectionChildren)
  else if children.isOnlyPadding then .error (.onlyPadding .collection)
  else .ok (.node c children .nil)

end ReportDescriptor
