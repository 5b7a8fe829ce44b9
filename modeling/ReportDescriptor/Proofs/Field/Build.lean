import ReportDescriptor.Field.Build
import ReportDescriptor.Proofs.Except

/-!
# When fields can be built

Building a field is a sequence of checks. Each is given here as the condition under which it
passes, together with what it then yields; the fields that can be built follow from these.
-/

namespace ReportDescriptor

open Error

theorem BitWidth.ofNat_eq_ok_iff {n : Nat} {w : BitWidth} : ofNat n = .ok w ↔ n = w.bits := by
  constructor
  · intro h
    rw [ofNat] at h
    split at h
    · exact congrArg bits (Except.ok.inj h)
    · cases h
  · rintro rfl
    exact ofNat_bits w

theorem FieldCount.ofNat_eq_ok_iff {n : Nat} {c : FieldCount} :
    ofNat n = .ok c ↔ n = c.value := by
  constructor
  · intro h
    rw [ofNat] at h
    split at h
    · exact congrArg value (Except.ok.inj h)
    · cases h
  · rintro rfl
    exact dif_pos ⟨c.one_le, c.le_max⟩

theorem Extent.ofBounds_eq_ok_iff {q : Quantity} {min max : Int32} {e : Extent} :
    ofBounds q min max = .ok e ↔ min ≤ max ∧ ⟨min, max⟩ = e := by
  rw [ofBounds]
  split
  case isTrue h => rw [Except.ok.injEq, and_iff_right h]
  case isFalse h => exact ⟨nofun, fun h' => absurd h'.1 h⟩

namespace UsageRange

/-- A range is determined by its ends, and any that are in order on one page make one. -/
theorem ofEnds_eq_ok_iff {u v : DocumentedUsage} {r : UsageRange} :
    ofEnds u v = .ok r ↔ u = r.first ∧ v = r.last := by
  constructor
  · intro h
    rw [ofEnds] at h
    split at h
    · split at h
      · obtain rfl := Except.ok.inj h
        exact ⟨rfl, rfl⟩
      · cases h
    · cases h
  · rintro ⟨rfl, rfl⟩
    rw [ofEnds, dif_pos r.page_eq, dif_pos r.first_lt_last]

theorem mem_usages {r : UsageRange} {u : Usage} :
    u ∈ r.usages ↔ u.page = r.page ∧ r.first.id ≤ u.id ∧ u.id ≤ r.last.id := by
  have hends := r.first_toNat_lt
  have hlast := r.last.id.toNat_lt
  simp only [usages, List.mem_map, List.mem_range'_1, UInt16.le_iff_toNat_le, count]
  constructor
  · rintro ⟨i, ⟨hfirst, hi⟩, rfl⟩
    have hsize : i < UInt16.size := by
      rw [UInt16.size]
      omega
    simp only [UInt16.toNat_ofNat_of_lt' hsize]
    exact ⟨trivial, hfirst, by omega⟩
  · rintro ⟨hpage, hfirst, hlast⟩
    refine ⟨u.id.toNat, ⟨hfirst, by omega⟩, ?_⟩
    rw [UInt16.ofNat_toNat, ← hpage]

end UsageRange

namespace DataFlags

variable {f : DataFlags}

theorem find?_present_eq_none_iff :
    (f.present.find? fun a => a ≠ .modification && a ≠ .relation) = none ↔
      ∀ a, (f.get a).isSome = true → a = .modification ∨ a = .relation := by
  rw [List.find?_eq_none]
  constructor
  · intro h a ha
    have hother := h a (mem_present.2 ha)
    cases a <;> first | exact .inl rfl | exact .inr rfl | exact absurd rfl hother
  · intro h a ha
    rcases h a (mem_present.1 ha) with rfl | rfl <;> exact Bool.false_ne_true

/-- Which attributes may be set, at all and for an array, is restricted in input reports only. -/
theorem validate_eq_ok_iff {kind : ReportKind} {g : Grouping} :
    f.validate kind g = .ok ⟨⟩ ↔ (kind = .input → f.volatility = none ∧
      (g = .array → ∀ a, (f.get a).isSome = true → a = .modification ∨ a = .relation)) := by
  by_cases hkind : kind = .input
  · unfold validate
    rw [if_neg fun h => h hkind, ← find?_present_eq_none_iff]
    cases hvolatility : f.volatility with
    | some setting => simp [hkind]
    | none =>
      cases g
      · cases f.present.find? fun a => a ≠ .modification && a ≠ .relation <;> simp [hkind]
      · simp
  · rw [validate_of_ne_input f hkind]
    exact iff_of_true rfl fun h => absurd h hkind

theorem validate_variables_eq_ok_iff {kind : ReportKind} :
    f.validate kind .variables = .ok ⟨⟩ ↔ (kind = .input → f.volatility = none) := by
  simp [validate_eq_ok_iff]

theorem validate_array_eq_ok_iff {kind : ReportKind} :
    f.validate kind .array = .ok ⟨⟩ ↔ (kind = .input → ∀ a, (f.get a).isSome = true →
      a = .modification ∨ a = .relation) := by
  rw [validate_eq_ok_iff]
  constructor
  · exact fun h hkind => (h hkind).2 rfl
  · intro h hkind
    refine ⟨?_, fun _ => h hkind⟩
    cases hvolatility : f.volatility with
    | none => rfl
    | some setting => simpa using h hkind .volatility (Option.isSome_of_eq_some hvolatility)

end DataFlags

namespace FieldSpec

variable {s : FieldSpec}

/-- A size without a sentinel stands for its full signed extent. -/
theorem widthAndLogical_eq_ok_iff {w : BitWidth} {e : Extent} :
    s.widthAndLogical = .ok (w, e) ↔
      (s.size = some w.bits ∧ s.logical = none ∧ (s.sentinel.getD .signed).extent w = e) ∨
      (s.size = none ∧ s.logical = some (e.min, e.max) ∧ s.sentinel = none ∧ e.min ≤ e.max ∧
        e.minimalWidth = w) := by
  unfold widthAndLogical
  cases s.size with
  | none =>
    cases s.logical with
    | none => cases s.sentinel <;> simp
    | some bounds =>
      cases s.sentinel with
      | some sentinel => simp
      | none =>
        simp only [bind_eq_ok_iff, pure_eq_ok_iff, Extent.ofBounds_eq_ok_iff, Prod.mk.injEq]
        constructor
        · rintro ⟨_, ⟨hle, rfl⟩, rfl, rfl⟩
          exact .inr ⟨trivial, rfl, trivial, hle, rfl⟩
        · rintro (⟨h, -⟩ | ⟨-, h, -, hle, rfl⟩)
          · cases h
          · obtain rfl := Option.some.inj h
            exact ⟨e, ⟨hle, rfl⟩, rfl, rfl⟩
  | some n =>
    cases s.logical with
    | some bounds => cases s.sentinel <;> simp
    | none =>
      have hsized (sentinel : Sentinel) :
          (BitWidth.ofNat n >>= fun v => pure (v, sentinel.extent v)) = .ok (w, e) ↔
            n = w.bits ∧ sentinel.extent w = e := by
        simp only [bind_eq_ok_iff, pure_eq_ok_iff, BitWidth.ofNat_eq_ok_iff, Prod.mk.injEq]
        constructor
        · rintro ⟨_, hn, rfl, he⟩
          exact ⟨hn, he⟩
        · rintro ⟨hn, he⟩
          exact ⟨w, hn, rfl, he⟩
      cases s.sentinel with
      | none => exact (hsized .signed).trans (by simp)
      | some sentinel => exact (hsized sentinel).trans (by simp)

theorem physicalExtent_eq_ok_iff {p : Option Extent} :
    s.physicalExtent = .ok p ↔
      s.physical = p.map (fun e => (e.min, e.max)) ∧ ∀ e, p = some e → e.min ≤ e.max := by
  rw [physicalExtent]
  cases s.physical with
  | none => cases p <;> simp
  | some bounds =>
    simp only [map_eq_ok_iff, Extent.ofBounds_eq_ok_iff]
    constructor
    · rintro ⟨_, ⟨hle, rfl⟩, rfl⟩
      exact ⟨rfl, fun e he => Option.some.inj he ▸ hle⟩
    · rintro ⟨h, hle⟩
      cases p with
      | none => cases h
      | some e =>
        obtain rfl := Option.some.inj h
        exact ⟨e, ⟨hle e rfl, rfl⟩, rfl⟩

theorem fieldCount_eq_ok_iff {c : FieldCount} : s.fieldCount = .ok c ↔ s.count.getD 1 = c.value :=
  FieldCount.ofNat_eq_ok_iff

theorem usages_eq_ok_iff {r : UsageRange} :
    s.usages = .ok r ↔ s.usage = none ∧ s.usageRange = some (r.first, r.last) := by
  simp only [usages, bind_eq_ok_iff, exists_unit_iff, require_eq_ok_iff, demand_eq_ok_iff,
    Option.isNone_iff_eq_none, UsageRange.ofEnds_eq_ok_iff, Prod.exists, exists_eq_right_right,
    exists_eq_right]

theorem dataField_eq_ok_iff {packing : Packing} {report : ReportKind} {f : DataField} :
    s.dataField packing report = .ok f ↔
      ∃ width logical physical, s.widthAndLogical = .ok (width, logical) ∧
        s.physicalExtent = .ok physical ∧
        (s.flags.getD {}).validate report .variables = .ok () ∧
        f = ⟨⟨width, packing⟩, logical, physical, s.unit, s.unitExponent, s.flags.getD {},
          report⟩ := by
  simp only [dataField, bind_eq_ok_iff, exists_unit_iff, pure_eq_ok_iff, Prod.exists,
    exists_and_left, @eq_comm _ _ f]

end FieldSpec

theorem Variable.build_eq_ok_iff {s : FieldSpec} {report : ReportKind} {ctx : BuildContext}
    {v : Variable} :
    build s report ctx = .ok v ↔ s.usageRange = none ∧ s.usage = some v.usage ∧
      s.count.getD 1 = v.count.value ∧ s.dataField ctx.packing report = .ok v.field := by
  simp only [build, exists_unit_iff, require_eq_ok_iff, Option.isNone_iff_eq_none,
    bind_eq_ok_iff, demand_eq_ok_iff, FieldSpec.fieldCount_eq_ok_iff, pure_eq_ok_iff]
  constructor
  · rintro ⟨hrange, usage, husage, count, hcount, field, hfield, rfl⟩
    exact ⟨hrange, husage, hcount, hfield⟩
  · rintro ⟨hrange, husage, hcount, hfield⟩
    exact ⟨hrange, v.usage, husage, v.count, hcount, v.field, hfield, rfl⟩

theorem VariableRange.build_eq_ok_iff {s : FieldSpec} {report : ReportKind} {ctx : BuildContext}
    {v : VariableRange} :
    build s report ctx = .ok v ↔ s.usages = .ok v.usages ∧ s.count = none ∧
      s.dataField ctx.packing report = .ok v.field := by
  simp only [build, exists_unit_iff, require_eq_ok_iff, Option.isNone_iff_eq_none,
    bind_eq_ok_iff]
  constructor
  · rintro ⟨usages, husages, hcount, h⟩
    rw [ofUsages] at h
    split at h
    · obtain ⟨field, hfield, rfl⟩ := map_eq_ok_iff.1 h
      exact ⟨husages, hcount, hfield⟩
    · cases h
  · rintro ⟨husages, hcount, hfield⟩
    refine ⟨v.usages, husages, hcount, ?_⟩
    rw [ofUsages, dif_pos v.count_le, hfield]
    rfl

namespace Selection

theorem build_eq_ok_iff {s : FieldSpec} {report : ReportKind} {ctx : BuildContext}
    {v : Selection} :
    build s report ctx = .ok v ↔ s.usages = .ok v.usages ∧
      (s.size = none ∧ s.logical = none ∧ s.sentinel = none) ∧
      (s.physical = none ∧ s.unit = none ∧ s.unitExponent = none) ∧
      (∀ u ∈ v.usages.usages, ctx.usages u = true) ∧ s.count.getD 1 = v.count.value ∧
      (s.flags.getD {}).validate report .array = .ok () ∧
      v.field = ⟨⟨indexWidth v.usages, ctx.packing⟩, indices v.usages, none, none, none,
        s.flags.getD {}, report⟩ := by
  simp only [build, bind_eq_ok_iff, exists_unit_iff, require_eq_ok_iff, Bool.and_eq_true,
    Option.isNone_iff_eq_none, UsageRange.ensureKnown_eq_ok_iff, FieldSpec.fieldCount_eq_ok_iff,
    pure_eq_ok_iff, and_assoc]
  constructor
  · rintro ⟨usages, husages, hsize, hlogical, hsentinel, hphysical, hunit, hexponent, hknown,
      count, hcount, hflags, rfl⟩
    exact ⟨husages, hsize, hlogical, hsentinel, hphysical, hunit, hexponent, hknown, hcount,
      hflags, rfl⟩
  · rintro ⟨husages, hsize, hlogical, hsentinel, hphysical, hunit, hexponent, hknown, hcount,
      hflags, hfield⟩
    exact ⟨v.usages, husages, hsize, hlogical, hsentinel, hphysical, hunit, hexponent, hknown,
      v.count, hcount, hflags, hfield ▸ rfl⟩

end Selection

namespace Leaf

theorem buildPadding_eq_ok_iff {s : FieldSpec} {w : BitWidth} :
    buildPadding s = .ok w ↔
      (s.usage = none ∧ s.usageRange = none ∧ s.logical = none ∧ s.sentinel = none ∧
        s.physical = none ∧ s.flags = none ∧ s.unit = none ∧ s.unitExponent = none) ∧
      s.count.getD 1 = 1 ∧ s.size = some w.bits := by
  simp only [buildPadding, bind_eq_ok_iff, exists_unit_iff, require_eq_ok_iff,
    demand_eq_ok_iff, BitWidth.ofNat_eq_ok_iff, Bool.and_eq_true, Option.isNone_iff_eq_none,
    decide_eq_true_eq, and_assoc, exists_eq_right]

theorem build_eq_ok_iff {s : FieldSpec} {report : ReportKind} {ctx : BuildContext} {l : Leaf} :
    build s report ctx = .ok l ↔ buildUnnamed s report ctx = .ok l :=
  mapError_eq_ok_iff

/-- Single usages and ranges have the data of the specification, arrays have data of their own, and
padding has none. -/
theorem cases_of_build {s : FieldSpec} {report : ReportKind} {ctx : BuildContext} {l : Leaf}
    (h : build s report ctx = .ok l) :
    (l.grouping = .variables ∧
      ∃ f, l.data? = some f ∧ s.dataField ctx.packing report = .ok f) ∨
    (∃ v, l = .array v ∧ Selection.build s report ctx = .ok v) ∨ ∃ w, l = .padding w := by
  rw [build_eq_ok_iff, buildUnnamed] at h
  cases hkind : s.kind <;> rw [hkind] at h <;> obtain ⟨v, hv, rfl⟩ := map_eq_ok_iff.1 h
  case single =>
    obtain ⟨-, -, -, hfield⟩ := Variable.build_eq_ok_iff.1 hv
    exact .inl ⟨rfl, v.field, rfl, hfield⟩
  case range =>
    obtain ⟨-, -, hfield⟩ := VariableRange.build_eq_ok_iff.1 hv
    exact .inl ⟨rfl, v.field, rfl, hfield⟩
  case array => exact .inr (.inl ⟨v, rfl, hv⟩)
  case padding => exact .inr (.inr ⟨v, rfl⟩)

end Leaf

end ReportDescriptor
