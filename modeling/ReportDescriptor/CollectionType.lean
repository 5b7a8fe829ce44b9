/-!
# Collection types

The outermost collections of a descriptor are applications. Inside a report fields are grouped
into physical and logical collections.
-/

namespace ReportDescriptor

inductive CollectionType
  | physical
  | application
  | logical
deriving DecidableEq

namespace CollectionType

def code : CollectionType → Nat
  | physical => 0
  | application => 1
  | logical => 2

def ofCode? (n : Nat) : Option CollectionType :=
  [physical, application, logical].find? (·.code = n)

def label : CollectionType → String
  | physical => "Physical"
  | application => "Application"
  | logical => "Logical"

@[simp] theorem ofCode?_code (t : CollectionType) : ofCode? t.code = some t := by
  cases t <;> rfl

end CollectionType

/-- The collections that may stand inside a report. -/
inductive CollectionKind
  | physical
  | logical
deriving DecidableEq

def CollectionKind.type : CollectionKind → CollectionType
  | physical => .physical
  | logical => .logical

end ReportDescriptor
