import ReportDescriptor.Unit.Exponent

/-!
# Physical units

A unit is a system of measurement and one exponent for each base dimension. On the wire it is a
word of seven four-bit codes: the system lowest, then the exponents in the order of `Dimension`.
-/

namespace ReportDescriptor

inductive UnitSystem
  | none
  | siLinear
  | siRotation
  | englishLinear
  | englishRotation
  | vendor
deriving DecidableEq

namespace UnitSystem

def code : UnitSystem → Nat
  | none => 0
  | siLinear => 1
  | siRotation => 2
  | englishLinear => 3
  | englishRotation => 4
  | vendor => 15

theorem code_lt (s : UnitSystem) : s.code < 16 := by
  cases s <;> decide

theorem code_inj {s t : UnitSystem} (h : s.code = t.code) : s = t := by
  cases s <;> cases t <;> first | rfl | cases h

end UnitSystem

/-- One value for each dimension. -/
structure Dimensions (α : Type) where
  length : α
  mass : α
  time : α
  temperature : α
  current : α
  luminousIntensity : α
deriving DecidableEq

namespace Dimensions

variable {α : Type}

def get (v : Dimensions α) : Dimension → α
  | .length => v.length
  | .mass => v.mass
  | .time => v.time
  | .temperature => v.temperature
  | .current => v.current
  | .luminousIntensity => v.luminousIntensity

def toList (v : Dimensions α) : List α :=
  Dimension.all.map v.get

end Dimensions

structure PhysicalUnit where
  system : UnitSystem
  exponents : Dimensions Exponent
deriving DecidableEq

namespace PhysicalUnit

/-- The first dimension whose exponent has no code is at fault. -/
def ofInts (system : UnitSystem) (exponents : Dimensions Int) : Except Error PhysicalUnit := do
  let length ← Exponent.ofInt (some .length) exponents.length
  let mass ← Exponent.ofInt (some .mass) exponents.mass
  let time ← Exponent.ofInt (some .time) exponents.time
  let temperature ← Exponent.ofInt (some .temperature) exponents.temperature
  let current ← Exponent.ofInt (some .current) exponents.current
  let luminousIntensity ← Exponent.ofInt (some .luminousIntensity) exponents.luminousIntensity
  return ⟨system, ⟨length, mass, time, temperature, current, luminousIntensity⟩⟩

/-- The word with the given codes, lowest first. -/
def wordOfCodes (codes : List Nat) : Nat :=
  codes.foldr (fun c w => c + 16 * w) 0

def codes (u : PhysicalUnit) : List Nat :=
  u.system.code :: u.exponents.toList.map Exponent.code

def word (u : PhysicalUnit) : Nat :=
  wordOfCodes u.codes

theorem code_lt_of_mem_codes {u : PhysicalUnit} {c : Nat} (h : c ∈ u.codes) : c < 16 := by
  rcases List.mem_cons.1 h with rfl | h
  · exact u.system.code_lt
  · obtain ⟨e, _, rfl⟩ := List.mem_map.1 h
    exact e.code_lt

/-- The highest of the eight codes of a 32-bit word is not used. -/
theorem word_lt (u : PhysicalUnit) : u.word < 0x10000000 := by
  have hs := u.system.code_lt
  have h₁ := u.exponents.length.code_lt
  have h₂ := u.exponents.mass.code_lt
  have h₃ := u.exponents.time.code_lt
  have h₄ := u.exponents.temperature.code_lt
  have h₅ := u.exponents.current.code_lt
  have h₆ := u.exponents.luminousIntensity.code_lt
  simp only [word, codes, Dimensions.toList, Dimension.all, Dimensions.get, wordOfCodes,
    List.map_cons, List.map_nil, List.foldr_cons, List.foldr_nil]
  omega

/-- A unit with exponent one in a single dimension. -/
def base (system : UnitSystem) (dimension : Dimension) : PhysicalUnit :=
  let e := fun d => if d = dimension then Exponent.one else Exponent.zero
  ⟨system, ⟨e .length, e .mass, e .time, e .temperature, e .current, e .luminousIntensity⟩⟩

def none : PhysicalUnit :=
  ⟨.none, ⟨.zero, .zero, .zero, .zero, .zero, .zero⟩⟩

def centimeter : PhysicalUnit := base .siLinear .length
def inch : PhysicalUnit := base .englishLinear .length
def radian : PhysicalUnit := base .siRotation .length
def degree : PhysicalUnit := base .englishRotation .length
def second : PhysicalUnit := base .siLinear .time
def gram : PhysicalUnit := base .siLinear .mass
def kelvin : PhysicalUnit := base .siLinear .temperature
def fahrenheit : PhysicalUnit := base .englishLinear .temperature
def ampere : PhysicalUnit := base .siLinear .current
def candela : PhysicalUnit := base .siLinear .luminousIntensity

end PhysicalUnit

end ReportDescriptor
