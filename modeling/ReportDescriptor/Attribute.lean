import ReportDescriptor.ReportKind

/-!
# Attributes of a data field

A main item carries one bit for each of eight attributes. Each has a standard setting, written
as a zero bit, and an alternate one; `bit` is its place in the item's data. Bit 1 is not an
attribute: it tells variables from arrays.
-/

namespace ReportDescriptor

inductive Attribute
  | modification
  | relation
  | wrapping
  | linearity
  | preference
  | meaningfulData
  | volatility
  | contingent
deriving DecidableEq

inductive Setting
  | standard
  | alternate
deriving DecidableEq

/-- Whether a field holds one value for each usage or indices into its usages. -/
inductive Grouping
  | array
  | variables
deriving DecidableEq

namespace Attribute

/-- In the order of their bits. -/
def all : List Attribute :=
  [.modification, .relation, .wrapping, .linearity, .preference, .meaningfulData, .volatility,
    .contingent]

theorem mem_all (a : Attribute) : a ∈ all := by
  cases a <;> decide

def label : Attribute → String
  | modification => "modification"
  | relation => "relation"
  | wrapping => "wrapping"
  | linearity => "linearity"
  | preference => "preference state"
  | meaningfulData => "meaningful data"
  | volatility => "volatility"
  | contingent => "contingent kind"

def bit : Attribute → Nat
  | modification => 0
  | relation => 2
  | wrapping => 3
  | linearity => 4
  | preference => 5
  | meaningfulData => 6
  | volatility => 7
  | contingent => 8

end Attribute

end ReportDescriptor
