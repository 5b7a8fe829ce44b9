import ReportDescriptor.ReportKind

/-!
# Item kinds

A short item opens with one byte: two bits for the number of data bytes, two for the category and
four for the tag. Category and tag together determine the kind.
-/

namespace ReportDescriptor

/-- Main items make fields and collections; global items are in force until they are changed,
local ones up to the next main item. -/
inductive ItemCategory
  | mainItem
  | globalItem
  | localItem
deriving DecidableEq

def ItemCategory.code : ItemCategory → Nat
  | mainItem => 0
  | globalItem => 1
  | localItem => 2

inductive ItemKind
  | input
  | output
  | feature
  | collection
  | endCollection
  | usagePage
  | logicalMinimum
  | logicalMaximum
  | physicalMinimum
  | physicalMaximum
  | unitExponent
  | unit
  | reportSize
  | reportId
  | reportCount
  | push
  | pop
  | usage
  | usageMinimum
  | usageMaximum
  | designatorIndex
  | designatorMinimum
  | designatorMaximum
  | stringIndex
  | stringMinimum
  | stringMaximum
  | delimiter
deriving DecidableEq

namespace ItemKind

def all : List ItemKind :=
  [.input, .output, .feature, .collection, .endCollection, .usagePage, .logicalMinimum,
    .logicalMaximum, .physicalMinimum, .physicalMaximum, .unitExponent, .unit, .reportSize,
    .reportId, .reportCount, .push, .pop, .usage, .usageMinimum, .usageMaximum,
    .designatorIndex, .designatorMinimum, .designatorMaximum, .stringIndex, .stringMinimum,
    .stringMaximum, .delimiter]

theorem mem_all (k : ItemKind) : k ∈ all := by
  cases k <;> decide

def category : ItemKind → ItemCategory
  | input | output | feature | collection | endCollection => .mainItem
  | usagePage | logicalMinimum | logicalMaximum | physicalMinimum | physicalMaximum
  | unitExponent | unit | reportSize | reportId | reportCount | push | pop => .globalItem
  | usage | usageMinimum | usageMaximum | designatorIndex | designatorMinimum
  | designatorMaximum | stringIndex | stringMinimum | stringMaximum | delimiter => .localItem

def tag : ItemKind → Nat
  | input => 0x8
  | output => 0x9
  | feature => 0xb
  | collection => 0xa
  | endCollection => 0xc
  | usagePage => 0x0
  | logicalMinimum => 0x1
  | logicalMaximum => 0x2
  | physicalMinimum => 0x3
  | physicalMaximum => 0x4
  | unitExponent => 0x5
  | unit => 0x6
  | reportSize => 0x7
  | reportId => 0x8
  | reportCount => 0x9
  | push => 0xa
  | pop => 0xb
  | usage => 0x0
  | usageMinimum => 0x1
  | usageMaximum => 0x2
  | designatorIndex => 0x3
  | designatorMinimum => 0x4
  | designatorMaximum => 0x5
  | stringIndex => 0x7
  | stringMinimum => 0x8
  | stringMaximum => 0x9
  | delimiter => 0xa

/-- Logical and physical extents are two's complement numbers, all other data is unsigned. -/
def isSigned : ItemKind → Bool
  | logicalMinimum | logicalMaximum | physicalMinimum | physicalMaximum => true
  | _ => false

def hasData : ItemKind → Bool
  | endCollection | push | pop => false
  | _ => true

/-- The first byte of an item with the given size code. -/
def leadByte (k : ItemKind) (sizeCode : Nat) : UInt8 :=
  UInt8.ofNat (k.tag * 16 + k.category.code * 4 + sizeCode)

/-- The kind whose category and tag stand in a first byte, whatever its size code. -/
def ofLeadByte? (b : UInt8) : Option ItemKind :=
  all.find? fun k => k.category.code = b.toNat / 4 % 4 && k.tag = b.toNat / 16

theorem ofLeadByte?_leadByte (k : ItemKind) {n : Nat} (h : n < 4) :
    ofLeadByte? (k.leadByte n) = some k := by
  match n, h with
  | 0, _ => cases k <;> decide
  | 1, _ => cases k <;> decide
  | 2, _ => cases k <;> decide
  | 3, _ => cases k <;> decide

def ofReport : ReportKind → ItemKind
  | .input => input
  | .output => output
  | .feature => feature

/-- The report kind of a main item for a field. -/
def report? : ItemKind → Option ReportKind
  | input => some .input
  | output => some .output
  | feature => some .feature
  | _ => none

@[simp] theorem report?_ofReport (r : ReportKind) : (ofReport r).report? = some r := by
  cases r <;> rfl

def label : ItemKind → String
  | input => "Input"
  | output => "Output"
  | feature => "Feature"
  | collection => "Collection"
  | endCollection => "End Collection"
  | usagePage => "Usage Page"
  | logicalMinimum => "Logical Minimum"
  | logicalMaximum => "Logical Maximum"
  | physicalMinimum => "Physical Minimum"
  | physicalMaximum => "Physical Maximum"
  | unitExponent => "Unit Exponent"
  | unit => "Unit"
  | reportSize => "Report Size"
  | reportId => "Report ID"
  | reportCount => "Report Count"
  | push => "Push"
  | pop => "Pop"
  | usage => "Usage"
  | usageMinimum => "Usage Minimum"
  | usageMaximum => "Usage Maximum"
  | designatorIndex => "Designator Index"
  | designatorMinimum => "Designator Minimum"
  | designatorMaximum => "Designator Maximum"
  | stringIndex => "String Index"
  | stringMinimum => "String Minimum"
  | stringMaximum => "String Maximum"
  | delimiter => "Delimiter"

end ItemKind

end ReportDescriptor
