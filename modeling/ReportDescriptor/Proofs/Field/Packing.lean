import Mathlib.Order.Closure
import ReportDescriptor.Field.Width

/-!
# Packing as a closure

A packing takes each size to the least multiple of its granularity that is not below it, cut off at
32 bits. The cut need not be such a multiple, but it is one of eight, and rounding it up again
leaves it where it is. So on the widths of fields every packing is a closure operator. Words of 64
bits have room for all that is multiplied on the way, however coarse the packing is.
-/

namespace ReportDescriptor

instance : PartialOrder BitWidth :=
  PartialOrder.lift BitWidth.bits fun _ _ h => BitWidth.ext h

namespace Packing

theorem isLeast_mul_ceil (bits : Nat) {step : Nat} (h : 0 < step) :
    IsLeast {m | step ∣ m ∧ bits ≤ m} ((bits + (step - 1)) / step * step) := by
  refine ⟨⟨Nat.dvd_mul_left step _, le_mul_ceil bits h⟩, ?_⟩
  rintro m ⟨⟨k, rfl⟩, hle⟩
  have hquotient : (bits + (step - 1)) / step < k + 1 := by
    rw [Nat.div_lt_iff_lt_mul h, Nat.succ_mul, Nat.mul_comm k]
    omega
  rw [Nat.mul_comm step]
  exact Nat.mul_le_mul_right step (Nat.le_of_lt_succ hquotient)

theorem add_pred_div (bits : Nat) {step : Nat} (h : 0 < step) :
    (bits + (step - 1)) / step = if bits % step = 0 then bits / step else bits / step + 1 := by
  have hquotient := Nat.div_add_mod bits step
  have hremainder := Nat.mod_lt bits h
  rw [Nat.mul_comm] at hquotient
  split
  · refine Nat.div_eq_of_lt_le (by omega) ?_
    rw [Nat.succ_mul]
    omega
  · refine Nat.div_eq_of_lt_le ?_ ?_
    · rw [Nat.succ_mul]
      omega
    · rw [Nat.succ_mul, Nat.succ_mul]
      omega

theorem roundUp_mono (p : Packing) {m n : Nat} (h : m ≤ n) : p.roundUp m ≤ p.roundUp n := by
  cases p with
  | tight => exact h
  | bytes g pos =>
    have hsteps : (m + (8 * g - 1)) / (8 * g) ≤ (n + (8 * g - 1)) / (8 * g) :=
      Nat.div_le_div_right (Nat.add_le_add_right h _)
    have hceil := Nat.mul_le_mul_right (8 * g) hsteps
    simp only [roundUp]
    omega

theorem roundUp_bytes_mod (n : Nat) (pos : 0 < n) (bits : Nat) :
    (bytes n pos).roundUp bits % 8 = 0 := by
  have hmultiple : 8 ∣ (bits + (8 * n - 1)) / (8 * n) * (8 * n) :=
    Nat.dvd_trans (Nat.dvd_mul_right 8 n) (Nat.dvd_mul_left _ _)
  rw [roundUp]
  omega

/-- Below the cut the result is a multiple of the granularity, which is its own least one. -/
@[simp] theorem roundUp_roundUp (p : Packing) (bits : Nat) :
    p.roundUp (p.roundUp bits) = p.roundUp bits := by
  cases p with
  | tight => rfl
  | bytes n pos =>
    have hstep : 0 < 8 * n := Nat.mul_pos (by omega) pos
    obtain ⟨⟨hdvd, -⟩, -⟩ := isLeast_mul_ceil bits hstep
    have hround : (bytes n pos).roundUp bits =
        min ((bits + (8 * n - 1)) / (8 * n) * (8 * n)) 32 := rfl
    rcases Nat.le_total 32 ((bits + (8 * n - 1)) / (8 * n) * (8 * n)) with hcut | hbelow
    · rw [hround, Nat.min_eq_right hcut, roundUp_max]
    · rw [hround, Nat.min_eq_left hbelow]
      refine Nat.le_antisymm ?_ ((bytes n pos).le_roundUp hbelow)
      exact Nat.le_trans (Nat.min_le_left _ _)
        ((isLeast_mul_ceil _ hstep).2 ⟨hdvd, Nat.le_refl _⟩)

/-- The cut is no multiple of three bytes. -/
example : (bytes 3 (by decide)).roundUp 20 = 24 ∧ (bytes 3 (by decide)).roundUp 25 = 32 := by
  decide

/-- The width that a field takes up, for the width that it asks for. -/
def closure (p : Packing) : ClosureOperator BitWidth :=
  .mk' (fun w => ⟨p.roundUp w.bits, Nat.le_trans w.one_le (p.le_roundUp w.le_max),
      p.roundUp_le w.le_max⟩)
    (fun _ _ h => p.roundUp_mono h)
    (fun w => p.le_roundUp w.le_max)
    (fun w => Nat.le_of_eq (p.roundUp_roundUp w.bits))

/-- Rounding up to multiples of `step` bits, but never above 32. -/
structure RoundsUp (step : Nat) (round : Nat → Nat) : Prop where
  eq_min : ∀ bits, ∃ m, IsLeast {m | step ∣ m ∧ bits ≤ m} m ∧ round bits = min 32 m
  le_max : ∀ bits, round bits ≤ 32
  eight_dvd : ∀ bits, 8 ∣ round bits
  monotone : Monotone round
  idempotent : ∀ bits, round (round bits) = round bits
  le_round : ∀ bits ≤ 32, bits ≤ round bits
  round_max : round 32 = 32

theorem roundsUp_bytes {n : Nat} (pos : 0 < n) : RoundsUp (8 * n) (bytes n pos).roundUp where
  eq_min bits :=
    ⟨_, isLeast_mul_ceil bits (Nat.mul_pos (by omega) pos), Nat.min_comm _ _⟩
  le_max _ := Nat.min_le_right _ _
  eight_dvd bits := Nat.dvd_of_mod_eq_zero (roundUp_bytes_mod n pos bits)
  monotone _ _ h := roundUp_mono _ h
  idempotent := roundUp_roundUp _
  le_round _ h := le_roundUp _ h
  round_max := roundUp_max _

end Packing

namespace Words

/-- The product, if it is a word again. -/
def mulWide? (a b : UInt64) : Option UInt64 :=
  if a.toNat * b.toNat < UInt64.size then some (a * b) else none

/-- The sum, if it is a word again. -/
def addWide? (a b : UInt64) : Option UInt64 :=
  if a.toNat + b.toNat < UInt64.size then some (a + b) else none

/-- The quotient rounded up, if there is one. -/
def divCeil? (a b : UInt64) : Option UInt64 :=
  if b = 0 then none else if a % b = 0 then some (a / b) else addWide? (a / b) 1

/-- The same number as a word of half the length, if it is one. -/
def narrow? (a : UInt64) : Option UInt32 :=
  if a.toNat < UInt32.size then some a.toUInt32 else none

/-- Packing in words: nothing is rounded up if anything on the way is not a word. -/
def roundUp? (granularity bits : UInt32) : Option UInt32 := do
  let step ← mulWide? granularity.toUInt64 8
  let steps ← divCeil? bits.toUInt64 step
  let rounded ← mulWide? steps step
  narrow? (min rounded 32)

variable {a b : UInt64}

theorem exists_mulWide? (h : a.toNat * b.toNat < UInt64.size) :
    ∃ c, mulWide? a b = some c ∧ c.toNat = a.toNat * b.toNat := by
  refine ⟨a * b, if_pos h, ?_⟩
  rw [UInt64.toNat_mul]
  exact Nat.mod_eq_of_lt h

theorem exists_addWide? (h : a.toNat + b.toNat < UInt64.size) :
    ∃ c, addWide? a b = some c ∧ c.toNat = a.toNat + b.toNat := by
  refine ⟨a + b, if_pos h, ?_⟩
  rw [UInt64.toNat_add]
  exact Nat.mod_eq_of_lt h

theorem exists_narrow? (h : a.toNat < UInt32.size) :
    ∃ c, narrow? a = some c ∧ c.toNat = a.toNat := by
  refine ⟨a.toUInt32, if_pos h, ?_⟩
  rw [UInt64.toNat_toUInt32]
  exact Nat.mod_eq_of_lt h

/-- One more than the quotient is no word only if the dividend is the greatest word there is. -/
theorem exists_divCeil? (hb : 0 < b.toNat) (ha : a.toNat + 1 < UInt64.size) :
    ∃ c, divCeil? a b = some c ∧ c.toNat = (a.toNat + (b.toNat - 1)) / b.toNat := by
  have hne : b ≠ 0 := by
    rintro rfl
    exact Nat.lt_irrefl 0 hb
  have hdvd : a % b = 0 ↔ a.toNat % b.toNat = 0 := by
    rw [← UInt64.toNat_inj, UInt64.toNat_mod]
    rfl
  rw [divCeil?, if_neg hne, Packing.add_pred_div _ hb, ← UInt64.toNat_div]
  by_cases hzero : a % b = 0
  · rw [if_pos hzero, if_pos (hdvd.1 hzero)]
    exact ⟨a / b, rfl, rfl⟩
  · have hle : (a / b).toNat ≤ a.toNat := by
      rw [UInt64.toNat_div]
      exact Nat.div_le_self _ _
    rw [if_neg hzero, if_neg (mt hdvd.2 hzero)]
    exact exists_addWide? (Nat.lt_of_le_of_lt (Nat.add_le_add_right hle 1) ha)

/-- The step is a word of 35 bits, and the result before the cut exceeds the size by less. -/
theorem exists_roundUp? (granularity bits : UInt32) (pos : 0 < granularity.toNat) :
    ∃ r, roundUp? granularity bits = some r ∧
      r.toNat = (Packing.bytes granularity.toNat pos).roundUp bits.toNat := by
  have hgranularity := granularity.toNat_lt
  have hbits := bits.toNat_lt
  have hsize : UInt64.size = 2 ^ 64 := rfl
  have h₈ : (8 : UInt64).toNat = 8 := rfl
  obtain ⟨step, hstep, hstepBits⟩ := exists_mulWide? (a := granularity.toUInt64) (b := 8) (by
    rw [UInt32.toNat_toUInt64, h₈]
    omega)
  rw [UInt32.toNat_toUInt64, h₈, Nat.mul_comm] at hstepBits
  obtain ⟨steps, hsteps, hcount⟩ := exists_divCeil? (a := bits.toUInt64) (b := step)
    (by omega) (by rw [UInt32.toNat_toUInt64]; omega)
  rw [UInt32.toNat_toUInt64, hstepBits] at hcount
  have hproduct : steps.toNat * step.toNat ≤ bits.toNat + (8 * granularity.toNat - 1) := by
    rw [hcount, hstepBits]
    exact Nat.div_mul_le_self _ _
  obtain ⟨rounded, hrounded, hmultiple⟩ := exists_mulWide? (a := steps) (b := step) (by omega)
  have hcut : (min rounded 32).toNat =
      (Packing.bytes granularity.toNat pos).roundUp bits.toNat := by
    rw [UInt64.toNat_min, hmultiple, hcount, hstepBits]
    rfl
  obtain ⟨r, hr, hnarrow⟩ := exists_narrow? (a := min rounded 32) (by
    rw [hcut]
    exact Nat.lt_of_le_of_lt (Nat.min_le_right _ _) (by decide))
  refine ⟨r, ?_, hnarrow.trans hcut⟩
  simp only [roundUp?, hstep, hsteps, hrounded, Option.bind_eq_bind, Option.bind_some, hr]

end Words

/-- Every positive granularity makes a packing that rounds up to the least multiple, cut off at 32.
Words give the same result without a sum or a product that is too large, and on the widths of fields
packing is a closure. -/
theorem Packing.ofBytes_roundsUp :
    (∀ n, 0 < n → ∃ p, ofBytes n = .ok p ∧ p.granularity? = some n ∧ RoundsUp (8 * n) p.roundUp ∧
      ∀ granularity bits : UInt32, granularity.toNat = n →
        ∃ r, Words.roundUp? granularity bits = some r ∧ r.toNat = p.roundUp bits.toNat) ∧
    ∀ s : FieldSize, s.adjusted = (s.packing.closure s.requested).bits := by
  refine ⟨fun n pos => ⟨.bytes n pos, dif_pos pos, rfl, roundsUp_bytes pos, ?_⟩, fun _ => rfl⟩
  rintro granularity bits rfl
  exact Words.exists_roundUp? granularity bits pos

/-- With the coarsest granularity that is a word, a step takes 35 bits. -/
theorem Packing.ofBytes_roundsUp_coarsest :
    0 < 4294967295 ∧ (4294967295 : UInt32).toNat = 4294967295 ∧
      ∃ p, ofBytes 4294967295 = .ok p ∧ RoundsUp (8 * 4294967295) p.roundUp ∧
        ∃ r, Words.roundUp? 4294967295 33 = some r ∧ r.toNat = p.roundUp 33 := by
  obtain ⟨p, hp, -, hround, hwords⟩ := ofBytes_roundsUp.1 4294967295 (by decide)
  exact ⟨by decide, rfl, p, hp, hround, hwords 4294967295 33 rfl⟩

end ReportDescriptor
