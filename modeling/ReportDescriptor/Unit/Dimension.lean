/-!
# Dimensions

The six base dimensions of a unit, in the order in which a unit word lists them.
-/

namespace ReportDescriptor

inductive Dimension
  | length
  | mass
  | time
  | temperature
  | current
  | luminousIntensity
deriving DecidableEq

namespace Dimension

def all : List Dimension :=
  [.length, .mass, .time, .temperature, .current, .luminousIntensity]

theorem mem_all (d : Dimension) : d ∈ all := by
  cases d <;> decide

def label : Dimension → String
  | length => "length"
  | mass => "mass"
  | time => "time"
  | temperature => "temperature"
  | current => "current"
  | luminousIntensity => "luminous intensity"

end Dimension

end ReportDescriptor
