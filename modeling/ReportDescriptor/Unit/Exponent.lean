import ReportDescriptor.Error

/-!
# Exponents

Powers of units and of ten are written as four-bit two's complement codes, so they lie between
-8 and 7.
-/

namespace ReportDescriptor

structure Exponent where
  value : Int
  neg_eight_le : -8 ≤ value := by omega
  le_seven : value ≤ 7 := by omega
deriving DecidableEq

namespace Exponent

@[ext] theorem ext {e f : Exponent} (h : e.value = f.value) : e = f := by
  cases e
  cases f
  cases h
  rfl

def zero : Exponent := ⟨0, by omega, by omega⟩

def one : Exponent := ⟨1, by omega, by omega⟩

/-- The exponent `value` of a dimension, or of the value itself. -/
def ofInt (dimension : Option Dimension) (value : Int) : Except Error Exponent :=
  if h : -8 ≤ value ∧ value ≤ 7 then .ok ⟨value, h.1, h.2⟩
  else .error (.invalidUnit (.exponent dimension value))

def code (e : Exponent) : Nat :=
  (e.value % 16).toNat

/-- Only the lowest four bits of a code count. -/
def ofCode (code : Nat) : Exponent :=
  let n := code % 16
  have hn : n < 16 := Nat.mod_lt _ (by omega)
  if h : n < 8 then ⟨n, by omega, by omega⟩ else ⟨(n : Int) - 16, by omega, by omega⟩

theorem code_lt (e : Exponent) : e.code < 16 := by
  simp only [code]
  omega

theorem ofCode_code (e : Exponent) : ofCode e.code = e := by
  have h₁ := e.neg_eight_le
  have h₂ := e.le_seven
  have hlt := e.code_lt
  have hc : (e.code : Int) = e.value % 16 := by
    simp only [code]
    omega
  apply ext
  simp only [ofCode]
  split
  · simp only
    omega
  · simp only
    omega

theorem code_ofCode (n : Nat) : (ofCode n).code = n % 16 := by
  simp only [ofCode, code]
  split <;> simp only <;> omega

theorem code_inj {e f : Exponent} (h : e.code = f.code) : e = f := by
  rw [← ofCode_code e, h, ofCode_code]

end Exponent

end ReportDescriptor
