import ReportDescriptor.Proofs.Field.Build
import ReportDescriptor.Proofs.Field.Faults

/-!
# Well-formed specifications

Which specifications a field is built from, read off the settings alone, and under which name the
faults of all others are reported.
-/

namespace ReportDescriptor

open Error

namespace FieldSpec

variable (s : FieldSpec)

def HasSize : Prop :=
  ∃ bits, s.size = some bits ∧ 1 ≤ bits ∧ bits ≤ 32

/-- The values are given in one of three ways: by a size, by their least and greatest, or by a
size and which of its two full extents is meant. -/
def Scaled : Prop :=
  (s.HasSize ∧ s.logical = none ∧ s.sentinel = none) ∨
  (s.size = none ∧ (∃ min max, s.logical = some (min, max) ∧ min ≤ max) ∧ s.sentinel = none) ∨
  (s.HasSize ∧ s.logical = none ∧ ∃ sentinel, s.sentinel = some sentinel)

def HasPhysicalInOrder : Prop :=
  ∀ min max, s.physical = some (min, max) → min ≤ max

def HasCount : Prop :=
  1 ≤ s.count.getD 1 ∧ s.count.getD 1 ≤ 65535

/-- Two usages in order on one page that satisfy `p`, and no single usage. -/
def HasRange (p : Usage → Usage → Prop) : Prop :=
  s.usage = none ∧ ∃ first last, s.usageRange = some (first, last) ∧
    first.page = last.page ∧ first.id < last.id ∧ p first.toUsage last.toUsage

structure WellFormedVariable (report : ReportKind) : Prop where
  usage : ∃ usage, s.usage = some usage
  noRange : s.usageRange = none
  count : s.HasCount
  scaled : s.Scaled
  physical : s.HasPhysicalInOrder
  flags : report = .input → ∀ f, s.flags = some f → f.volatility = none

structure WellFormedRange (report : ReportKind) : Prop where
  range : s.HasRange fun first last => last.id.toNat - first.id.toNat + 1 ≤ 65535
  noCount : s.count = none
  scaled : s.Scaled
  physical : s.HasPhysicalInOrder
  flags : report = .input → ∀ f, s.flags = some f → f.volatility = none

structure WellFormedArray (report : ReportKind) (table : UsageTable) : Prop where
  range : s.HasRange fun first last =>
    ∀ id, first.id ≤ id → id ≤ last.id → table ⟨first.page, id⟩ = true
  noScale : s.size = none ∧ s.logical = none ∧ s.sentinel = none
  noPhysical : s.physical = none ∧ s.unit = none ∧ s.unitExponent = none
  count : s.HasCount
  flags : report = .input → ∀ f, s.flags = some f →
    ∀ a, (f.get a).isSome = true → a = .modification ∨ a = .relation

structure WellFormedPadding : Prop where
  size : s.HasSize
  count : s.count = none ∨ s.count = some 1
  noUsage : s.usage = none ∧ s.usageRange = none
  noLogical : s.logical = none ∧ s.sentinel = none
  noPhysical : s.physical = none ∧ s.unit = none ∧ s.unitExponent = none
  noFlags : s.flags = none

def WellFormed (report : ReportKind) (table : UsageTable) : Prop :=
  match s.kind with
  | .single => s.WellFormedVariable report
  | .range => s.WellFormedRange report
  | .array => s.WellFormedArray report table
  | .padding => s.WellFormedPadding

variable {s}

theorem hasSize_iff : s.HasSize ↔ ∃ w : BitWidth, s.size = some w.bits := by
  constructor
  · rintro ⟨bits, hsize, hone, hmax⟩
    exact ⟨⟨bits, hone, hmax⟩, hsize⟩
  · rintro ⟨w, hsize⟩
    exact ⟨w.bits, hsize, w.one_le, w.le_max⟩

theorem hasCount_iff : s.HasCount ↔ ∃ c : FieldCount, s.count.getD 1 = c.value := by
  constructor
  · rintro ⟨hone, hmax⟩
    exact ⟨⟨_, hone, hmax⟩, rfl⟩
  · rintro ⟨c, hcount⟩
    exact ⟨hcount ▸ c.one_le, hcount ▸ c.le_max⟩

theorem exists_widthAndLogical_iff :
    (∃ width logical, s.widthAndLogical = .ok (width, logical)) ↔ s.Scaled := by
  simp only [widthAndLogical_eq_ok_iff, Scaled, hasSize_iff]
  constructor
  · rintro ⟨w, e, ⟨hsize, hlogical, -⟩ | ⟨hsize, hlogical, hsentinel, hle, -⟩⟩
    · cases hsentinel : s.sentinel with
      | none => exact .inl ⟨⟨w, hsize⟩, hlogical, rfl⟩
      | some sentinel => exact .inr (.inr ⟨⟨w, hsize⟩, hlogical, sentinel, rfl⟩)
    · exact .inr (.inl ⟨hsize, ⟨e.min, e.max, hlogical, hle⟩, hsentinel⟩)
  · rintro (⟨⟨w, hsize⟩, hlogical, -⟩ | ⟨hsize, ⟨min, max, hlogical, hle⟩, hsentinel⟩ |
      ⟨⟨w, hsize⟩, hlogical, -⟩)
    · exact ⟨w, _, .inl ⟨hsize, hlogical, rfl⟩⟩
    · exact ⟨_, ⟨min, max⟩, .inr ⟨hsize, hlogical, hsentinel, hle, rfl⟩⟩
    · exact ⟨w, _, .inl ⟨hsize, hlogical, rfl⟩⟩

theorem exists_physicalExtent_iff :
    (∃ physical, s.physicalExtent = .ok physical) ↔ s.HasPhysicalInOrder := by
  simp only [physicalExtent_eq_ok_iff, HasPhysicalInOrder]
  constructor
  · rintro ⟨p, hphysical, hle⟩ min max h
    rw [hphysical, Option.map_eq_some_iff] at h
    obtain ⟨e, he, h⟩ := h
    cases h
    exact hle e he
  · intro h
    cases hphysical : s.physical with
    | none => exact ⟨none, rfl, nofun⟩
    | some bounds =>
      refine ⟨some ⟨bounds.1, bounds.2⟩, rfl, ?_⟩
      rintro e he
      obtain rfl := Option.some.inj he
      exact h _ _ hphysical

/-- Flags that are not given count as empty. -/
theorem getD_flags_iff {p : DataFlags → Prop} (hempty : p {}) :
    p (s.flags.getD {}) ↔ ∀ f, s.flags = some f → p f := by
  cases s.flags with
  | none => exact iff_of_true hempty fun _ h => absurd h.symm (Option.some_ne_none _)
  | some f => simp

theorem exists_dataField_iff {packing : Packing} {report : ReportKind} :
    (∃ f, s.dataField packing report = .ok f) ↔ s.Scaled ∧ s.HasPhysicalInOrder ∧
      (report = .input → ∀ f, s.flags = some f → f.volatility = none) := by
  rw [← exists_widthAndLogical_iff, ← exists_physicalExtent_iff,
    ← getD_flags_iff (p := fun f => f.volatility = none) rfl]
  simp only [dataField_eq_ok_iff, DataFlags.validate_variables_eq_ok_iff]
  constructor
  · rintro ⟨_, width, logical, physical, hscaled, hphysical, hflags, -⟩
    exact ⟨⟨width, logical, hscaled⟩, ⟨physical, hphysical⟩, hflags⟩
  · rintro ⟨⟨width, logical, hscaled⟩, ⟨physical, hphysical⟩, hflags⟩
    exact ⟨_, width, logical, physical, hscaled, hphysical, hflags, rfl⟩

theorem hasRange_iff {p : Usage → Usage → Prop} :
    s.HasRange p ↔ ∃ r, s.usages = .ok r ∧ p r.first.toUsage r.last.toUsage := by
  simp only [HasRange, usages_eq_ok_iff]
  constructor
  · rintro ⟨husage, first, last, hrange, hpage, hlt, hp⟩
    exact ⟨⟨first, last, hpage, hlt⟩, ⟨husage, hrange⟩, hp⟩
  · rintro ⟨r, ⟨husage, hrange⟩, hp⟩
    exact ⟨husage, r.first, r.last, hrange, r.page_eq, r.first_lt_last, hp⟩

end FieldSpec

theorem Variable.exists_build_iff {s : FieldSpec} {report : ReportKind} {ctx : BuildContext} :
    (∃ v, build s report ctx = .ok v) ↔ s.WellFormedVariable report := by
  simp only [build_eq_ok_iff]
  constructor
  · rintro ⟨v, hrange, husage, hcount, hfield⟩
    obtain ⟨hscaled, hphysical, hflags⟩ := FieldSpec.exists_dataField_iff.1 ⟨_, hfield⟩
    exact ⟨⟨v.usage, husage⟩, hrange, FieldSpec.hasCount_iff.2 ⟨_, hcount⟩, hscaled, hphysical,
      hflags⟩
  · rintro ⟨⟨usage, husage⟩, hrange, hcount, hscaled, hphysical, hflags⟩
    obtain ⟨count, hcount⟩ := FieldSpec.hasCount_iff.1 hcount
    obtain ⟨f, hfield⟩ := FieldSpec.exists_dataField_iff.2 ⟨hscaled, hphysical, hflags⟩
    exact ⟨⟨usage, count, f⟩, hrange, husage, hcount, hfield⟩

theorem VariableRange.exists_build_iff {s : FieldSpec} {report : ReportKind}
    {ctx : BuildContext} :
    (∃ v, build s report ctx = .ok v) ↔ s.WellFormedRange report := by
  simp only [build_eq_ok_iff]
  constructor
  · rintro ⟨v, husages, hcount, hfield⟩
    obtain ⟨hscaled, hphysical, hflags⟩ := FieldSpec.exists_dataField_iff.1 ⟨_, hfield⟩
    exact ⟨FieldSpec.hasRange_iff.2 ⟨_, husages, v.count_le⟩, hcount, hscaled, hphysical, hflags⟩
  · rintro ⟨hrange, hcount, hscaled, hphysical, hflags⟩
    obtain ⟨r, husages, hle⟩ := FieldSpec.hasRange_iff.1 hrange
    obtain ⟨f, hfield⟩ := FieldSpec.exists_dataField_iff.2 ⟨hscaled, hphysical, hflags⟩
    exact ⟨⟨r, hle, f⟩, husages, hcount, hfield⟩

theorem Selection.exists_build_iff {s : FieldSpec} {report : ReportKind} {ctx : BuildContext} :
    (∃ v, build s report ctx = .ok v) ↔ s.WellFormedArray report ctx.usages := by
  have hknown (r : UsageRange) : (∀ u ∈ r.usages, ctx.usages u = true) ↔
      ∀ id, r.first.id ≤ id → id ≤ r.last.id → ctx.usages ⟨r.page, id⟩ = true := by
    simp only [UsageRange.mem_usages]
    constructor
    · exact fun h id hfirst hlast => h _ ⟨rfl, hfirst, hlast⟩
    · rintro h ⟨page, id⟩ ⟨rfl, hfirst, hlast⟩
      exact h id hfirst hlast
  have hempty (a : Attribute) (ha : (({} : DataFlags).get a).isSome = true) :
      a = .modification ∨ a = .relation := by
    cases a <;> cases ha
  simp only [build_eq_ok_iff, hknown, DataFlags.validate_array_eq_ok_iff]
  constructor
  · rintro ⟨v, husages, hscale, hphysical, htable, hcount, hflags, -⟩
    exact ⟨FieldSpec.hasRange_iff.2 ⟨_, husages, htable⟩, hscale, hphysical,
      FieldSpec.hasCount_iff.2 ⟨_, hcount⟩,
      fun hinput => (FieldSpec.getD_flags_iff hempty).1 (hflags hinput)⟩
  · rintro ⟨hrange, hscale, hphysical, hcount, hflags⟩
    obtain ⟨r, husages, htable⟩ := FieldSpec.hasRange_iff.1 hrange
    obtain ⟨count, hcount⟩ := FieldSpec.hasCount_iff.1 hcount
    let f : DataField := ⟨⟨indexWidth r, ctx.packing⟩, indices r, none, none, none,
      s.flags.getD {}, report⟩
    exact ⟨⟨r, count, f⟩, husages, hscale, hphysical, htable, hcount,
      fun hinput => (FieldSpec.getD_flags_iff hempty).2 (hflags hinput), rfl⟩

namespace Leaf

theorem exists_buildPadding_iff {s : FieldSpec} :
    (∃ w, buildPadding s = .ok w) ↔ s.WellFormedPadding := by
  simp only [buildPadding_eq_ok_iff, exists_and_left, ← FieldSpec.hasSize_iff]
  have hcount : s.count.getD 1 = 1 ↔ s.count = none ∨ s.count = some 1 := by
    cases s.count <;> simp
  rw [hcount]
  constructor
  · rintro ⟨⟨husage, hrange, hlogical, hsentinel, hphysical, hflags, hunit, hexponent⟩, hcount,
      hsize⟩
    exact ⟨hsize, hcount, ⟨husage, hrange⟩, ⟨hlogical, hsentinel⟩, ⟨hphysical, hunit, hexponent⟩,
      hflags⟩
  · rintro ⟨hsize, hcount, ⟨husage, hrange⟩, ⟨hlogical, hsentinel⟩,
      ⟨hphysical, hunit, hexponent⟩, hflags⟩
    exact ⟨⟨husage, hrange, hlogical, hsentinel, hphysical, hflags, hunit, hexponent⟩, hcount,
      hsize⟩

theorem exists_map_eq_ok_iff {α : Type} {x : Except Error α} {f : α → Leaf} :
    (∃ l, f <$> x = .ok l) ↔ ∃ a, x = .ok a := by
  simp only [map_eq_ok_iff]
  exact ⟨fun ⟨_, a, ha, _⟩ => ⟨a, ha⟩, fun ⟨a, ha⟩ => ⟨_, a, ha, rfl⟩⟩

theorem exists_build_iff {s : FieldSpec} {report : ReportKind} {ctx : BuildContext} :
    (∃ l, build s report ctx = .ok l) ↔ s.WellFormed report ctx.usages := by
  simp only [build_eq_ok_iff, buildUnnamed, FieldSpec.WellFormed]
  cases s.kind with
  | single => exact exists_map_eq_ok_iff.trans Variable.exists_build_iff
  | range => exact exists_map_eq_ok_iff.trans VariableRange.exists_build_iff
  | array => exact exists_map_eq_ok_iff.trans Selection.exists_build_iff
  | padding => exact exists_map_eq_ok_iff.trans exists_buildPadding_iff

/-- The well-formed specifications are the ones fields are built from. Any other is refused for a
cause of its own, which is reported under the name of the field, once, if the field has one. -/
theorem build_iff_wellFormed (s : FieldSpec) (report : ReportKind) (ctx : BuildContext) :
    ((∃ l, build s report ctx = .ok l) ↔ s.WellFormed report ctx.usages) ∧
      ∀ e, build s report ctx = .error e → ∃ cause,
        build { s with name := none } report ctx = .error cause ∧
        (∀ name source, cause ≠ .named name source) ∧
        (s.name = none → e = cause) ∧ ∀ name, s.name = some name → e = .named name cause := by
  refine ⟨exists_build_iff, fun e h => ?_⟩
  obtain ⟨cause, hcause, rfl⟩ := build_eq_error_iff.1 h
  refine ⟨cause, build_eq_error_iff.2 ⟨cause, hcause, rfl⟩, ?_, ?_, ?_⟩
  · rintro name source rfl
    exact anonymous_buildUnnamed s report ctx name source hcause
  · intro hname
    rw [hname, under_none]
  · intro name hname
    rw [hname, under_some]

theorem build_wide_gap :
    build { kind := .padding, name := some "gap", size := some 33 } .input {} =
        .error (.named "gap" (.outOfRange .fieldSize 33 1 32)) ∧
      ¬ FieldSpec.WellFormed { kind := .padding, name := some "gap", size := some 33 } .input
        UsageTable.everything ∧
      ∃ cause, build { kind := .padding, size := some 33 } .input {} = .error cause ∧
        Error.named "gap" (.outOfRange .fieldSize 33 1 32) = .named "gap" cause := by
  have hfault : build { kind := .padding, name := some "gap", size := some 33 } .input {} =
      .error (.named "gap" (.outOfRange .fieldSize 33 1 32)) := rfl
  obtain ⟨hiff, herror⟩ :=
    build_iff_wellFormed { kind := .padding, name := some "gap", size := some 33 } .input {}
  obtain ⟨cause, hcause, -, -, hnamed⟩ := herror _ hfault
  refine ⟨hfault, fun h => ?_, cause, hcause, hnamed "gap" rfl⟩
  obtain ⟨l, hl⟩ := hiff.2 h
  rw [hfault] at hl
  cases hl

end Leaf

end ReportDescriptor
