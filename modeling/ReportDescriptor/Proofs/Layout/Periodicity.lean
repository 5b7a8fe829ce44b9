import ReportDescriptor.Proofs.Layout.Overspan

/-!
# Eight values decide

Whether a value of a field reaches too far depends on where in its byte it starts, and these places
repeat after eight values. So the eight that are looked at decide for all, and of the bit at which
the field starts only its place in the byte counts. Words of 64 bits have room for the starts of
eight values, however large the field and its offset are.
-/

namespace ReportDescriptor

theorem overspans_eq_true_iff {offset size count : Nat} :
    overspans offset size count = true ↔
      ∃ i < count, 32 < (offset + i * size) % 8 + size := by
  rw [← Bool.not_eq_false, overspans_eq_false_iff]
  simp only [Classical.not_forall, Nat.not_le, exists_prop]

theorem overspans_mod (offset size count : Nat) :
    overspans (offset % 8) size count = overspans offset size count := by
  simp only [overspans, Nat.mod_add_mod]

theorem toNat_ofNat_mod_eight (n : Nat) : (UInt32.ofNat n).toNat % 8 = n % 8 := by
  rw [UInt32.toNat_ofNat']
  exact Nat.mod_mod_of_dvd n (by decide)

/-- A word keeps what counts of an offset. -/
theorem overspans_ofNat (offset size count : Nat) :
    overspans (UInt32.ofNat offset).toNat size count = overspans offset size count := by
  rw [← overspans_mod, toNat_ofNat_mod_eight, overspans_mod]

namespace Words

/-- Whether a value reaches too far, in words: all sums and products are taken modulo `2 ^ 64`. -/
def reachesTooFar (offset size count : UInt32) : Bool :=
  (List.range (min count 8).toNat).any fun i =>
    32 < (offset.toUInt64 + UInt64.ofNat i * size.toUInt64) % 8 + size.toUInt64

/-- The start of none of the first eight values is too large for a word. -/
theorem toNat_reach (offset size : UInt32) {i : Nat} (hi : i < 8) :
    ((offset.toUInt64 + UInt64.ofNat i * size.toUInt64) % 8 + size.toUInt64).toNat =
      (offset.toNat + i * size.toNat) % 8 + size.toNat := by
  have hoffset := offset.toNat_lt
  have hsize := size.toNat_lt
  have hproduct : i * size.toNat ≤ 7 * size.toNat := Nat.mul_le_mul_right _ (by omega)
  have hindex : (UInt64.ofNat i).toNat = i :=
    UInt64.toNat_ofNat_of_lt' (Nat.lt_trans hi (by decide))
  have hstart : (offset.toUInt64 + UInt64.ofNat i * size.toUInt64).toNat =
      offset.toNat + i * size.toNat := by
    rw [UInt64.toNat_add, UInt64.toNat_mul, hindex, UInt32.toNat_toUInt64, UInt32.toNat_toUInt64,
      Nat.mod_eq_of_lt (a := i * size.toNat) (by omega), Nat.mod_eq_of_lt (by omega)]
  have hplace := Nat.mod_lt (offset.toNat + i * size.toNat) (show 0 < 8 by omega)
  rw [UInt64.toNat_add, UInt64.toNat_mod, hstart, UInt32.toNat_toUInt64]
  exact Nat.mod_eq_of_lt (Nat.lt_trans (Nat.add_lt_add hplace hsize) (by decide))

theorem reachesTooFar_eq (offset size count : UInt32) :
    reachesTooFar offset size count = overspans offset.toNat size.toNat count.toNat := by
  have hcount : (min count 8).toNat = min count.toNat 8 := by
    change (if count ≤ 8 then count else 8).toNat = min count.toNat 8
    by_cases h : count ≤ 8
    · rw [if_pos h]
      exact (Nat.min_eq_left (UInt32.le_iff_toNat_le.1 h)).symm
    · rw [if_neg h]
      exact (Nat.min_eq_right (Nat.le_of_not_le fun hle => h (UInt32.le_iff_toNat_le.2 hle))).symm
  rw [Bool.eq_iff_iff, reachesTooFar, overspans, hcount]
  simp only [List.any_eq_true, List.mem_range, decide_eq_true_eq]
  refine exists_congr fun i => and_congr_right fun hi => ?_
  rw [UInt64.lt_iff_toNat_lt, toNat_reach offset size (by omega)]
  rfl

end Words

/-- Looking at eight values is exact for any number of them, and looks at the offset only modulo
eight. Words give the same answer as numbers without a bound. -/
theorem overspans_exact :
    (∀ offset size count : Nat,
      (overspans offset size count = true ↔
        ∃ i < count, 32 < (offset + i * size) % 8 + size) ∧
      overspans offset size count = overspans (offset % 8) size count) ∧
    ∀ offset size count : UInt32,
      (Words.reachesTooFar offset size count = true ↔
        ∃ i < count.toNat, 32 < (offset.toNat + i * size.toNat) % 8 + size.toNat) ∧
      Words.reachesTooFar offset size count = Words.reachesTooFar (offset % 8) size count ∧
      Words.reachesTooFar offset size count =
        overspans offset.toNat size.toNat count.toNat := by
  refine ⟨fun offset size count => ⟨overspans_eq_true_iff, (overspans_mod offset size count).symm⟩,
    fun offset size count => ⟨?_, ?_, Words.reachesTooFar_eq offset size count⟩⟩
  · rw [Words.reachesTooFar_eq, overspans_eq_true_iff]
  · rw [Words.reachesTooFar_eq, Words.reachesTooFar_eq, UInt32.toNat_mod]
    exact (overspans_mod offset.toNat size.toNat count.toNat).symm

end ReportDescriptor
