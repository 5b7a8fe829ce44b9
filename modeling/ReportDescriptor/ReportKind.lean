/-!
# Report kinds

A device sends input reports, receives output reports and answers feature reports. Every data
field belongs to exactly one of the three, and its main item is named after it.
-/

namespace ReportDescriptor

inductive ReportKind
  | input
  | output
  | feature
deriving DecidableEq

namespace ReportKind

def all : List ReportKind := [.input, .output, .feature]

theorem mem_all (k : ReportKind) : k ∈ all := by
  cases k <;> decide

def label : ReportKind → String
  | input => "Input"
  | output => "Output"
  | feature => "Feature"

end ReportKind

end ReportDescriptor
