import Mathlib.Algebra.Group.Nat.Defs
import ReportDescriptor.Proofs.Constructible

/-!
# Fields hold their values

However the width and the extent of a field come about, and however much layout widens it later,
the width has room for every value the field declares.
-/

namespace ReportDescriptor

/-- Whether so many bits can hold the value: as two's complement if the minimum is negative, and
without a sign otherwise. -/
def Extent.Holds (e : Extent) (bits : Nat) (value : Int) : Prop :=
  if e.min < 0 then -(2 ^ (bits - 1) : Nat) ≤ value ∧ value < (2 ^ (bits - 1) : Nat)
  else 0 ≤ value ∧ value < (2 ^ bits : Nat)

/-- The least and the greatest value are in order, and so many bits hold both. -/
structure Extent.Fits (e : Extent) (bits : Nat) : Prop where
  min_le : e.min ≤ e.max
  holds_min : e.Holds bits e.min.toInt
  holds_max : e.Holds bits e.max.toInt

structure DataField.Sound (f : DataField) : Prop where
  logical : f.logical.Fits f.size.requested.bits
  physical_le : f.declaredPhysical.min ≤ f.declaredPhysical.max

structure Leaf.Sound (l : Leaf) : Prop where
  one_le : 1 ≤ l.size.requested.bits
  requested_le : l.size.requested.bits ≤ l.size.adjusted
  adjusted_le : l.size.adjusted ≤ 32
  data : ∀ f, l.data? = some f → f.Sound
  /-- Zero stands for no selection. -/
  indices : ∀ s, l = .array s → ∀ i ≤ s.usages.count,
    s.field.logical.Holds s.field.size.requested.bits i

namespace Extent

variable {e : Extent} {w : BitWidth}

theorem Holds.mono {b c : Nat} {v : Int} (h : e.Holds b v) (hbc : b ≤ c) : e.Holds c v := by
  have hsigned : 2 ^ (b - 1) ≤ 2 ^ (c - 1) := Nat.pow_le_pow_right (by omega) (by omega)
  have hunsigned : 2 ^ b ≤ 2 ^ c := Nat.pow_le_pow_right (by omega) hbc
  unfold Holds at h ⊢
  split
  case isTrue hneg =>
    rw [if_pos hneg] at h
    omega
  case isFalse hneg =>
    rw [if_neg hneg] at h
    omega

theorem lt_zero_iff : e.min < 0 ↔ e.min.toInt < 0 := by
  rw [Int32.lt_iff_toInt_lt]
  rfl

theorem signBit_eq (bits : Nat) : signBit bits = (2 ^ (bits - 1) : Nat) := by
  rw [signBit, Nat.one_shiftLeft]

theorem two_pow_bounds {bits : Nat} (h : bits ≤ 31) : 0 < 2 ^ bits ∧ 2 ^ bits ≤ 2 ^ 31 :=
  ⟨Nat.two_pow_pos bits, Nat.pow_le_pow_right Nat.two_pos h⟩

theorem min_signed (w : BitWidth) : (signed w).min.toInt = -(2 ^ (w.bits - 1) : Nat) := by
  have hmax := w.le_max
  have hbounds : 0 < 2 ^ (w.bits - 1) ∧ 2 ^ (w.bits - 1) ≤ 2 ^ 31 := two_pow_bounds (by omega)
  rw [signed, signBit_eq]
  exact Int32.toInt_ofInt_of_le (by omega) (by omega)

theorem max_signed (w : BitWidth) : (signed w).max.toInt = (2 ^ (w.bits - 1) : Nat) - 1 := by
  have hmax := w.le_max
  have hbounds : 0 < 2 ^ (w.bits - 1) ∧ 2 ^ (w.bits - 1) ≤ 2 ^ 31 := two_pow_bounds (by omega)
  rw [signed, signBit_eq]
  exact Int32.toInt_ofInt_of_le (by omega) (by omega)

theorem max_unsigned (w : BitWidth) :
    (unsigned w).max.toInt = (2 ^ Nat.min w.bits 31 : Nat) - 1 := by
  have hbounds := two_pow_bounds (Nat.min_le_right w.bits 31)
  rw [unsigned, Nat.one_shiftLeft]
  exact Int32.toInt_ofInt_of_le (by omega) (by omega)

theorem fits_of_neg {bits : Nat} (hneg : e.min < 0) (hle : e.min ≤ e.max)
    (hmin : -(2 ^ (bits - 1) : Nat) ≤ e.min.toInt) (hmax : e.max.toInt < (2 ^ (bits - 1) : Nat)) :
    e.Fits bits := by
  have hle' := Int32.le_iff_toInt_le.1 hle
  refine ⟨hle, ?_, ?_⟩
  · rw [Holds, if_pos hneg]
    exact ⟨hmin, by omega⟩
  · rw [Holds, if_pos hneg]
    exact ⟨by omega, hmax⟩

theorem fits_of_nonneg {bits : Nat} (hnonneg : ¬ e.min < 0) (hle : e.min ≤ e.max)
    (hmax : e.max.toInt < (2 ^ bits : Nat)) : e.Fits bits := by
  have hle' := Int32.le_iff_toInt_le.1 hle
  have hmin := lt_zero_iff.not.1 hnonneg
  refine ⟨hle, ?_, ?_⟩
  · rw [Holds, if_neg hnonneg]
    exact ⟨by omega, by omega⟩
  · rw [Holds, if_neg hnonneg]
    exact ⟨by omega, hmax⟩

theorem fits_signed (w : BitWidth) : (signed w).Fits w.bits := by
  have hmin := min_signed w
  have hmax := max_signed w
  have hpos := Nat.two_pow_pos (w.bits - 1)
  apply fits_of_neg
  · rw [lt_zero_iff]
    omega
  · rw [Int32.le_iff_toInt_le]
    omega
  · omega
  · omega

theorem fits_unsigned (w : BitWidth) : (unsigned w).Fits w.bits := by
  have hmin : (unsigned w).min.toInt = 0 := rfl
  have hmax := max_unsigned w
  have hle : 2 ^ Nat.min w.bits 31 ≤ 2 ^ w.bits :=
    Nat.pow_le_pow_right (by omega) (Nat.min_le_left _ _)
  have hpos := Nat.two_pow_pos (Nat.min w.bits 31)
  apply fits_of_nonneg
  · rw [lt_zero_iff]
    omega
  · rw [Int32.le_iff_toInt_le]
    omega
  · omega

theorem fits_of_fits {bits : Nat} (hle : e.min ≤ e.max) (h : e.fits bits = true) :
    e.Fits bits := by
  by_cases hneg : e.min < 0
  · rw [fits, if_pos hneg, signBit_eq, Bool.and_eq_true, decide_eq_true_eq, decide_eq_true_eq] at h
    exact fits_of_neg hneg hle h.1 h.2
  · rw [fits, if_neg hneg, Nat.one_shiftLeft, decide_eq_true_eq] at h
    exact fits_of_nonneg hneg hle h

/-- Bounds are words, so at the latest a width of 32 bits holds them. -/
theorem fits_max (e : Extent) : e.fits BitWidth.max.bits = true := by
  have hmin := e.min.le_toInt
  have hmax := e.max.toInt_lt
  have hhalf : signBit BitWidth.max.bits = 2 ^ 31 := rfl
  have hwhole : (1 <<< BitWidth.max.bits : Nat) = 2 ^ 32 := rfl
  rw [fits, hhalf, hwhole]
  split
  · rw [decide_eq_true hmin, decide_eq_true hmax]
    rfl
  · exact decide_eq_true (by omega)

theorem fits_minimalWidth (hle : e.min ≤ e.max) : e.Fits e.minimalWidth.bits := by
  refine fits_of_fits hle ?_
  rw [minimalWidth]
  cases hfind : BitWidth.all.find? fun w => e.fits w.bits with
  | none => exact fits_max e
  | some w => exact List.find?_some (p := fun w : BitWidth => e.fits w.bits) hfind

end Extent

theorem Sentinel.fits_extent (sentinel : Sentinel) (w : BitWidth) :
    (sentinel.extent w).Fits w.bits := by
  cases sentinel with
  | signed => exact Extent.fits_signed w
  | unsigned => exact Extent.fits_unsigned w

theorem FieldSpec.fits_of_widthAndLogical {s : FieldSpec} {w : BitWidth} {e : Extent}
    (h : s.widthAndLogical = .ok (w, e)) : e.Fits w.bits := by
  rcases FieldSpec.widthAndLogical_eq_ok_iff.1 h with ⟨-, -, rfl⟩ | ⟨-, -, -, hle, rfl⟩
  · exact Sentinel.fits_extent _ w
  · exact Extent.fits_minimalWidth hle

theorem FieldSpec.sound_of_dataField {s : FieldSpec} {packing : Packing} {report : ReportKind}
    {f : DataField} (h : s.dataField packing report = .ok f) : f.Sound := by
  obtain ⟨w, e, p, hlogical, hphysical, -, rfl⟩ := dataField_eq_ok_iff.1 h
  refine ⟨fits_of_widthAndLogical hlogical, ?_⟩
  cases p with
  | none => exact Int32.le_refl 0
  | some p => exact (physicalExtent_eq_ok_iff.1 hphysical).2 p rfl

namespace Selection

theorem holds_indices (usages : UsageRange) {i : Nat} (hi : i ≤ usages.count) :
    (indices usages).Holds (indexWidth usages).bits i := by
  have hcount : usages.count < 2 ^ (indexWidth usages).bits := Nat.lt_log2_self
  have hneg : ¬ (indices usages).min < 0 := by
    change ¬ (1 : Int32) < 0
    decide
  rw [Extent.Holds, if_neg hneg]
  omega

theorem max_indices (usages : UsageRange) : (indices usages).max.toInt = usages.count := by
  have hle := usages.count_le
  exact Int32.toInt_ofNat_of_lt (by omega)

theorem fits_indices (usages : UsageRange) :
    (indices usages).Fits (indexWidth usages).bits := by
  have hmin : (indices usages).min.toInt = 1 := rfl
  have hmax := max_indices usages
  have htwo := usages.two_le_count
  constructor
  · rw [Int32.le_iff_toInt_le]
    omega
  · rw [hmin]
    exact holds_indices usages (i := 1) (by omega)
  · rw [hmax]
    exact holds_indices usages (Nat.le_refl _)

end Selection

theorem DataField.Sound.withRequested {f : DataField} {w : BitWidth}
    (hw : f.size.requested.bits ≤ w.bits) (h : f.Sound) : (f.withRequested w).Sound :=
  ⟨⟨h.logical.min_le, h.logical.holds_min.mono hw, h.logical.holds_max.mono hw⟩, h.physical_le⟩

namespace Leaf

theorem sound_padding (w : BitWidth) : (padding w).Sound where
  one_le := w.one_le
  requested_le := Nat.le_refl _
  adjusted_le := w.le_max
  data _ h := nomatch h
  indices _ h := nomatch h

theorem sound_of_variables {l : Leaf} {f : DataField} (hl : l.grouping = .variables)
    (hf : l.data? = some f) (hsound : f.Sound) : l.Sound where
  one_le := l.size.requested.one_le
  requested_le := l.size.requested_le_adjusted
  adjusted_le := l.size.adjusted_le
  data g hg := Option.some.inj (hf.symm.trans hg) ▸ hsound
  indices s h := by
    rw [h] at hl
    cases hl

theorem sound_array {s : Selection} (hsound : s.field.Sound)
    (hindices : ∀ i ≤ s.usages.count, s.field.logical.Holds s.field.size.requested.bits i) :
    (array s).Sound where
  one_le := s.field.size.requested.one_le
  requested_le := s.field.size.requested_le_adjusted
  adjusted_le := s.field.size.adjusted_le
  data _ hf := Option.some.inj hf ▸ hsound
  indices _ ht := array.inj ht ▸ hindices

theorem sound_of_build {s : FieldSpec} {report : ReportKind} {ctx : BuildContext} {l : Leaf}
    (h : build s report ctx = .ok l) : l.Sound := by
  obtain ⟨hgrouping, f, hf, hfield⟩ | ⟨v, rfl, hv⟩ | ⟨w, rfl⟩ := cases_of_build h
  · exact sound_of_variables hgrouping hf (FieldSpec.sound_of_dataField hfield)
  · obtain ⟨-, -, -, -, -, -, hfield⟩ := Selection.build_eq_ok_iff.1 hv
    apply sound_array
    · rw [hfield]
      exact ⟨Selection.fits_indices v.usages, Int32.le_refl 0⟩
    · rw [hfield]
      exact fun i hi => Selection.holds_indices v.usages hi
  · exact sound_padding w

/-- More bits hold whatever fewer do. -/
theorem Sound.widened {l m : Leaf} (hlm : l.Widened m) (h : l.Sound) : m.Sound := by
  obtain ⟨w, hw, rfl⟩ := hlm
  cases l with
  | single v => exact sound_of_variables rfl rfl ((h.data _ rfl).withRequested hw)
  | range v => exact sound_of_variables rfl rfl ((h.data _ rfl).withRequested hw)
  | array v =>
    exact sound_array ((h.data _ rfl).withRequested hw) fun i hi => (h.indices v rfl i hi).mono hw
  | padding v => exact sound_padding w

theorem Constructible.sound {l : Leaf} (h : l.Constructible) : l.Sound :=
  h.induction (fun _ _ _ _ => sound_of_build) fun _ _ => Sound.widened

end Leaf

/-- Every field has room for its values, when it is built and in any report that it becomes part
of. -/
theorem holds_values :
    (∀ s report ctx l, Leaf.build s report ctx = .ok l → l.Sound) ∧
      ∀ r : Report, r.Constructible → ∀ l ∈ r.leaves, l.Sound :=
  ⟨fun _ _ _ _ => Leaf.sound_of_build, fun _ hr l hl => (hr.leaves l hl).sound⟩

theorem holds_values_keypad :
    Sample.keys.Sound ∧ Sample.keypadReport.Constructible ∧
      ∀ l ∈ Sample.keypadReport.leaves, l.Sound :=
  ⟨holds_values.1 _ _ _ _ Sample.keys_of_build, Sample.keypadReport_constructible,
    holds_values.2 _ Sample.keypadReport_constructible⟩

end ReportDescriptor
