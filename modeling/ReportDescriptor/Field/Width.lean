import ReportDescriptor.Error

/-!
# Field widths

A value occupies one to 32 bits. Under a packing every width is rounded up to a multiple of some
bytes, but never above 32 bits.
-/

namespace ReportDescriptor

structure BitWidth where
  bits : Nat
  one_le : 1 ≤ bits := by omega
  le_max : bits ≤ 32 := by omega
deriving DecidableEq

namespace BitWidth

@[ext] theorem ext {v w : BitWidth} (h : v.bits = w.bits) : v = w := by
  cases v
  cases w
  cases h
  rfl

def max : BitWidth := ⟨32, by omega, by omega⟩

/-- In ascending order. -/
def all : List BitWidth :=
  (List.finRange 32).map fun i : Fin 32 => ⟨i.val + 1, by omega, by omega⟩

theorem mem_all (w : BitWidth) : w ∈ all := by
  have h₁ := w.one_le
  have h₂ := w.le_max
  refine List.mem_map.2 ⟨⟨w.bits - 1, by omega⟩, List.mem_finRange _, ?_⟩
  apply ext
  simp only
  omega

def ofNat (bits : Nat) : Except Error BitWidth :=
  if h : 1 ≤ bits ∧ bits ≤ 32 then .ok ⟨bits, h.1, h.2⟩
  else .error (.outOfRange .fieldSize bits 1 32)

theorem ofNat_bits (w : BitWidth) : ofNat w.bits = .ok w := by
  simp [ofNat, w.one_le, w.le_max]

/-- The sum of two widths, where it is one. -/
def add? (v w : BitWidth) : Option BitWidth :=
  have hv := v.one_le
  if h : v.bits + w.bits ≤ 32 then some ⟨v.bits + w.bits, by omega, h⟩ else none

theorem bits_of_add? {v w x : BitWidth} (h : v.add? w = some x) : x.bits = v.bits + w.bits := by
  simp only [add?] at h
  split at h
  · obtain rfl := Option.some.inj h
    rfl
  · cases h

end BitWidth

/-- Fields lie bit by bit, or each takes a multiple of `granularity` bytes. -/
inductive Packing
  | tight
  | bytes (granularity : Nat) (pos : 0 < granularity)
deriving DecidableEq

namespace Packing

def ofBytes (granularity : Nat) : Except Error Packing :=
  if h : 0 < granularity then .ok (.bytes granularity h)
  else .error (.outOfRange .packingGranularity 0 1 4294967295)

def granularity? : Packing → Option Nat
  | tight => none
  | bytes n _ => some n

/-- The least multiple of the granularity that is not below `bits`, cut off at 32. -/
def roundUp : Packing → Nat → Nat
  | tight, bits => bits
  | bytes n _, bits => min ((bits + (8 * n - 1)) / (8 * n) * (8 * n)) 32

theorem le_mul_ceil (bits : Nat) {step : Nat} (h : 0 < step) :
    bits ≤ (bits + (step - 1)) / step * step := by
  have hdiv := Nat.div_add_mod (bits + (step - 1)) step
  have hmod := Nat.mod_lt (bits + (step - 1)) h
  rw [Nat.mul_comm] at hdiv
  omega

theorem le_roundUp (p : Packing) {bits : Nat} (h : bits ≤ 32) : bits ≤ p.roundUp bits := by
  cases p with
  | tight => exact Nat.le_refl _
  | bytes n pos =>
    have hceil := le_mul_ceil bits (show 0 < 8 * n by omega)
    simp only [roundUp]
    omega

theorem roundUp_le (p : Packing) {bits : Nat} (h : bits ≤ 32) : p.roundUp bits ≤ 32 := by
  cases p with
  | tight => exact h
  | bytes n pos => exact Nat.min_le_right _ _

@[simp] theorem roundUp_max (p : Packing) : p.roundUp 32 = 32 :=
  Nat.le_antisymm (p.roundUp_le (Nat.le_refl 32)) (p.le_roundUp (Nat.le_refl 32))

end Packing

/-- The width a field asks for, and the packing that widens it. -/
structure FieldSize where
  requested : BitWidth
  packing : Packing
deriving DecidableEq

namespace FieldSize

/-- The number of bits of one value in the report. -/
def adjusted (s : FieldSize) : Nat :=
  s.packing.roundUp s.requested.bits

theorem requested_le_adjusted (s : FieldSize) : s.requested.bits ≤ s.adjusted :=
  s.packing.le_roundUp s.requested.le_max

theorem adjusted_le (s : FieldSize) : s.adjusted ≤ 32 :=
  s.packing.roundUp_le s.requested.le_max

@[simp] theorem adjusted_tight (w : BitWidth) : (FieldSize.mk w .tight).adjusted = w.bits := rfl

end FieldSize

/-- The number of values of a field. -/
structure FieldCount where
  value : Nat
  one_le : 1 ≤ value := by omega
  le_max : value ≤ 65535 := by omega
deriving DecidableEq

namespace FieldCount

@[ext] theorem ext {m n : FieldCount} (h : m.value = n.value) : m = n := by
  cases m
  cases n
  cases h
  rfl

def one : FieldCount := ⟨1, by omega, by omega⟩

def ofNat (value : Nat) : Except Error FieldCount :=
  if h : 1 ≤ value ∧ value ≤ 65535 then .ok ⟨value, h.1, h.2⟩
  else .error (.outOfRange .reportCount value 1 65535)

end FieldCount

end ReportDescriptor
