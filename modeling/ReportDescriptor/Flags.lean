import ReportDescriptor.Error
import ReportDescriptor.Total

/-!
# Attribute flags

The settings a caller gives for the attributes of a field. An attribute that is left open is
written like its standard setting, but the two are different descriptions.
-/

namespace ReportDescriptor

structure DataFlags where
  modification : Option Setting := none
  relation : Option Setting := none
  wrapping : Option Setting := none
  linearity : Option Setting := none
  preference : Option Setting := none
  meaningfulData : Option Setting := none
  volatility : Option Setting := none
  contingent : Option Setting := none
deriving DecidableEq

namespace DataFlags

variable (f : DataFlags)

def get : Attribute → Option Setting
  | .modification => f.modification
  | .relation => f.relation
  | .wrapping => f.wrapping
  | .linearity => f.linearity
  | .preference => f.preference
  | .meaningfulData => f.meaningfulData
  | .volatility => f.volatility
  | .contingent => f.contingent

/-- Nothing is set. -/
def isEmpty : Bool :=
  f = {}

/-- Padding is constant and standard in every other respect; volatility does not apply to it. -/
def padding : DataFlags where
  modification := some .alternate
  relation := some .standard
  wrapping := some .standard
  linearity := some .standard
  preference := some .standard
  meaningfulData := some .standard
  contingent := some .standard

/-- The attributes that are set, in the order of their bits. -/
def present : List Attribute :=
  Attribute.all.filter fun a => (f.get a).isSome

/-- In input reports no field is volatile, and an index into usages can only be constant or
relative. -/
def validate (kind : ReportKind) (grouping : Grouping) : Except Error PUnit :=
  if kind ≠ .input then .ok ⟨⟩
  else if f.volatility.isSome then .error (.flagNotAllowed .volatility kind)
  else
    match grouping, f.present.find? fun a => a ≠ .modification && a ≠ .relation with
    | .array, some a => .error (.flagNotAllowed a kind)
    | _, _ => .ok ⟨⟩

/-- The attributes whose bit is one. -/
def alternates : List Attribute :=
  Attribute.all.filter fun a => f.get a = some .alternate

/-- The data of the main item. -/
def word (grouping : Grouping) : Nat :=
  (if grouping = .variables then 2 else 0) + total (fun a => 1 <<< a.bit) f.alternates

theorem mem_present {f : DataFlags} {a : Attribute} : a ∈ f.present ↔ (f.get a).isSome := by
  simp [present, Attribute.mem_all]

theorem mem_alternates {f : DataFlags} {a : Attribute} :
    a ∈ f.alternates ↔ f.get a = some .alternate := by
  simp [alternates, Attribute.mem_all]

@[simp] theorem validate_of_ne_input {kind : ReportKind} (h : kind ≠ .input)
    (grouping : Grouping) : f.validate kind grouping = .ok ⟨⟩ := by
  simp [validate, h]

end DataFlags

end ReportDescriptor
