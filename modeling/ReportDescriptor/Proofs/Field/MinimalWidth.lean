import ReportDescriptor.Proofs.Field.Values
import ReportDescriptor.Proofs.Layout.Greedy

/-!
# The least width of an extent

A width holds an extent exactly if it is no less than the one that the search for the least width
ends with. So an extent that lies within another needs no more bits than that, even if only the
other one has a sign.
-/

namespace ReportDescriptor

namespace Extent

variable {e f : Extent} {w : BitWidth}

theorem fits_iff (hle : e.min ≤ e.max) {bits : Nat} :
    e.fits bits = true ↔ e.Holds bits e.min.toInt ∧ e.Holds bits e.max.toInt := by
  constructor
  · intro h
    have hfits := fits_of_fits hle h
    exact ⟨hfits.holds_min, hfits.holds_max⟩
  · rintro ⟨hmin, hmax⟩
    unfold Holds at hmin hmax
    rw [fits, signBit_eq, Nat.one_shiftLeft]
    split
    case isTrue hneg =>
      rw [if_pos hneg] at hmin hmax
      rw [decide_eq_true hmin.1, decide_eq_true hmax.2]
      rfl
    case isFalse hneg =>
      rw [if_neg hneg] at hmax
      exact decide_eq_true hmax.2

/-- At the latest the greatest of all widths is found, so there is always one. -/
theorem find?_fits (e : Extent) :
    BitWidth.all.find? (fun w => e.fits w.bits) = some e.minimalWidth := by
  rw [minimalWidth]
  cases hfind : BitWidth.all.find? fun w => e.fits w.bits with
  | none => exact absurd (fits_max e) (List.find?_eq_none.1 hfind _ (BitWidth.mem_all _))
  | some w => rfl

theorem minimalWidth_le_of_fits (h : e.fits w.bits = true) : e.minimalWidth.bits ≤ w.bits := by
  have hfind := find?_fits e
  rw [List.find?_eq_findSome?_guard] at hfind
  obtain ⟨v, -, hv, hleast⟩ :=
    Relocation.exists_least_of_findSome? BitWidth.pairwise_all hfind
  obtain ⟨rfl, -⟩ := Option.guard_eq_some_iff.1 hv
  rcases hleast w (BitWidth.mem_all w) (by simp [h]) with heq | hlt
  · exact Nat.le_of_eq (congrArg BitWidth.bits heq)
  · exact Nat.le_of_lt hlt

theorem minimalWidth_le_iff (hle : e.min ≤ e.max) : e.minimalWidth.bits ≤ w.bits ↔
    e.Holds w.bits e.min.toInt ∧ e.Holds w.bits e.max.toInt := by
  constructor
  · intro h
    have hfits := fits_minimalWidth hle
    exact ⟨hfits.holds_min.mono h, hfits.holds_max.mono h⟩
  · exact fun h => minimalWidth_le_of_fits ((fits_iff hle).2 h)

/-- What holds an extent holds every extent within it. If only the outer one has a sign, the values
of the inner one do with a bit less. -/
theorem holds_of_within {bits : Nat} {v : Int} (hmin : f.min ≤ e.min) (hmax : e.max ≤ f.max)
    (hf : f.Holds bits f.min.toInt ∧ f.Holds bits f.max.toInt)
    (hv : e.min.toInt ≤ v ∧ v ≤ e.max.toInt) : e.Holds bits v := by
  rw [Int32.le_iff_toInt_le] at hmin hmax
  have hhalf : 2 ^ (bits - 1) ≤ 2 ^ bits := Nat.pow_le_pow_right Nat.two_pos (Nat.sub_le bits 1)
  unfold Holds at hf ⊢
  simp only [lt_zero_iff] at hf ⊢
  split
  case isTrue hneg =>
    rw [if_pos (by omega), if_pos (by omega)] at hf
    omega
  case isFalse hnonneg =>
    split at hf
    · omega
    · omega

theorem minimalWidth_mono (hle : e.min ≤ e.max) (hmin : f.min ≤ e.min) (hmax : e.max ≤ f.max) :
    e.minimalWidth.bits ≤ f.minimalWidth.bits := by
  have hf := (minimalWidth_le_iff (Int32.le_trans (Int32.le_trans hmin hle) hmax)).1
    (Nat.le_refl f.minimalWidth.bits)
  have hle' := Int32.le_iff_toInt_le.1 hle
  exact (minimalWidth_le_iff hle).2 ⟨holds_of_within hmin hmax hf ⟨Int.le_refl _, hle'⟩,
    holds_of_within hmin hmax hf ⟨hle', Int.le_refl _⟩⟩

/-- The search always finds a width. It is the least of those that hold both bounds, and no less
than for any extent within. -/
theorem minimalWidth_exact :
    (∀ (e : Extent) (w : BitWidth), e.min ≤ e.max → (e.minimalWidth.bits ≤ w.bits ↔
      e.Holds w.bits e.min.toInt ∧ e.Holds w.bits e.max.toInt)) ∧
    (∀ e : Extent, BitWidth.all.find? (fun w => e.fits w.bits) = some e.minimalWidth ∧
      1 ≤ e.minimalWidth.bits ∧ e.minimalWidth.bits ≤ 32) ∧
    ∀ e f : Extent, e.min ≤ e.max → f.min ≤ e.min → e.max ≤ f.max →
      e.minimalWidth.bits ≤ f.minimalWidth.bits :=
  ⟨fun _ _ hle => minimalWidth_le_iff hle,
    fun e => ⟨find?_fits e, e.minimalWidth.one_le, e.minimalWidth.le_max⟩,
    fun _ _ => minimalWidth_mono⟩

/-- Eight bits hold 255 without a sign but not with one. -/
theorem minimalWidth_exact_byte :
    (Extent.mk 0 255).minimalWidth.bits ≤ 8 ∧ ¬ (Extent.mk (-1) 255).minimalWidth.bits ≤ 8 ∧
      (Extent.mk 0 255).minimalWidth.bits ≤ (Extent.mk (-1) 255).minimalWidth.bits := by
  obtain ⟨hexact, -, hmono⟩ := minimalWidth_exact
  refine ⟨(hexact _ ⟨8, by omega, by omega⟩ (by decide)).2 ?_, fun h => ?_,
    hmono _ _ (by decide) (by decide) (by decide)⟩
  · rw [Holds, Holds]
    decide
  · have hmax := ((hexact (Extent.mk (-1) 255) ⟨8, by omega, by omega⟩ (by decide)).1 h).2
    rw [Holds] at hmax
    exact absurd hmax (by decide)

end Extent

end ReportDescriptor
