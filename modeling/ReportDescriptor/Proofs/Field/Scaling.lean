import ReportDescriptor.Proofs.Field.MinimalWidth
import ReportDescriptor.Proofs.Field.WellFormed

/-!
# Ways to give the values of a field

A size, a size and which of its full extents is meant, and the extent itself come to the same field
wherever they describe the same values, or to the same fault. An array is as wide as a variable with
its indices for values.
-/

namespace ReportDescriptor

namespace Extent

variable {e : Extent} {w : BitWidth}

def bounds (e : Extent) : Int32 × Int32 := (e.min, e.max)

theorem minimalWidth_eq (h : e.Fits w.bits)
    (hleast : ∀ v : BitWidth, e.Fits v.bits → w.bits ≤ v.bits) : e.minimalWidth = w := by
  have hle := (minimalWidth_le_iff h.min_le).2 ⟨h.holds_min, h.holds_max⟩
  exact BitWidth.ext (Nat.le_antisymm hle (hleast _ (fits_minimalWidth h.min_le)))

theorem minimalWidth_signed (w : BitWidth) : (signed w).minimalWidth = w := by
  refine minimalWidth_eq (fits_signed w) fun v hv => ?_
  have hmin := min_signed w
  have hpos := Nat.two_pow_pos (w.bits - 1)
  have hneg : (signed w).min < 0 := by
    rw [lt_zero_iff]
    omega
  have hholds := hv.holds_min
  rw [Holds, if_pos hneg] at hholds
  have hpow : 2 ^ (w.bits - 1) ≤ 2 ^ (v.bits - 1) := by omega
  have hle := (Nat.pow_le_pow_iff_right Nat.one_lt_two).1 hpow
  have hone := v.one_le
  omega

/-- The full extent of 32 bits without a sign is that of 31 bits. -/
theorem bits_minimalWidth_unsigned (w : BitWidth) :
    (unsigned w).minimalWidth.bits = Nat.min w.bits 31 := by
  have hmax := max_unsigned w
  have hpos := Nat.two_pow_pos (Nat.min w.bits 31)
  have hmin : (unsigned w).min.toInt = 0 := rfl
  have hnonneg : ¬ (unsigned w).min < 0 := by
    rw [lt_zero_iff]
    omega
  have hle : (unsigned w).min ≤ (unsigned w).max := (fits_unsigned w).min_le
  apply Nat.le_antisymm
  · have hbits : 1 ≤ Nat.min w.bits 31 := Nat.le_min.2 ⟨w.one_le, by omega⟩
    let v : BitWidth := ⟨Nat.min w.bits 31, hbits, Nat.le_trans (Nat.min_le_left _ _) w.le_max⟩
    have hlt : (unsigned w).max.toInt < (2 ^ v.bits : Nat) := hmax ▸ Int.sub_one_lt_of_le le_rfl
    have hv : (unsigned w).Fits v.bits := fits_of_nonneg hnonneg hle hlt
    exact (minimalWidth_le_iff hle).2 ⟨hv.holds_min, hv.holds_max⟩
  · have hholds := (fits_minimalWidth hle).holds_max
    rw [Holds, if_neg hnonneg] at hholds
    have hpow : 2 ^ Nat.min w.bits 31 ≤ 2 ^ (unsigned w).minimalWidth.bits := by omega
    exact (Nat.pow_le_pow_iff_right Nat.one_lt_two).1 hpow

theorem minimalWidth_unsigned (h : w.bits ≤ 31) : (unsigned w).minimalWidth = w := by
  apply BitWidth.ext
  rw [bits_minimalWidth_unsigned]
  exact Nat.min_eq_left h

theorem unsigned_max : unsigned .max = ⟨0, 2147483647⟩ := by decide

end Extent

theorem Selection.minimalWidth_indices (usages : UsageRange) :
    (indices usages).minimalWidth = indexWidth usages := by
  refine Extent.minimalWidth_eq (fits_indices usages) fun v hv => ?_
  have hmax := max_indices usages
  have htwo := usages.two_le_count
  have hneg : ¬ (indices usages).min < 0 := by
    change ¬ (1 : Int32) < 0
    decide
  have hholds := hv.holds_max
  rw [Extent.Holds, if_neg hneg] at hholds
  have hcount : usages.count < 2 ^ v.bits := by omega
  exact (Nat.log2_lt (by omega)).2 hcount

namespace FieldSpec

variable {s : FieldSpec} {w : BitWidth}

/-- Nothing says yet which values the field has. -/
structure Unscaled (s : FieldSpec) : Prop where
  size : s.size = none
  logical : s.logical = none
  sentinel : s.sentinel = none

/-- All that is given agrees, except for the values. -/
def SameRest (s t : FieldSpec) : Prop :=
  t = { s with size := t.size, logical := t.logical, sentinel := t.sentinel }

theorem SameRest.rfl : s.SameRest s := Eq.refl s

theorem widthAndLogical_of_size (h : s.Unscaled) (w : BitWidth) :
    widthAndLogical { s with size := some w.bits } = .ok (w, .signed w) :=
  widthAndLogical_eq_ok_iff.2 (.inl ⟨rfl, h.logical, by rw [h.sentinel]; rfl⟩)

theorem widthAndLogical_of_sentinel (h : s.Unscaled) (w : BitWidth) (sentinel : Sentinel) :
    widthAndLogical { s with size := some w.bits, sentinel := some sentinel } =
      .ok (w, sentinel.extent w) :=
  widthAndLogical_eq_ok_iff.2 (.inl ⟨rfl, h.logical, rfl⟩)

theorem widthAndLogical_of_logical (h : s.Unscaled) {e : Extent} (hle : e.min ≤ e.max) :
    widthAndLogical { s with logical := some e.bounds } = .ok (e.minimalWidth, e) :=
  widthAndLogical_eq_ok_iff.2 (.inr ⟨h.size, rfl, h.sentinel, hle, rfl⟩)

theorem eq_of_widthAndLogical {v : BitWidth} {e f : Extent} (hlogical : s.logical = some e.bounds)
    (h : s.widthAndLogical = .ok (v, f)) : v = e.minimalWidth ∧ f = e := by
  rcases widthAndLogical_eq_ok_iff.1 h with ⟨-, hnone, -⟩ | ⟨-, hsome, -, -, rfl⟩
  · rw [hlogical] at hnone
    cases hnone
  · obtain rfl : e = f := Extent.ext (congrArg Prod.fst (Option.some.inj (hlogical ▸ hsome)))
      (congrArg Prod.snd (Option.some.inj (hlogical ▸ hsome)))
    exact ⟨rfl, rfl⟩

end FieldSpec

/-- Of two specifications that differ only in how the values are given, and give the same ones,
either makes the field of the other in a width of its own. -/
theorem FieldSpec.dataField_eq_withRequested {s t : FieldSpec} {packing : Packing}
    {report : ReportKind} {v w : BitWidth} {e : Extent} (hrest : s.SameRest t)
    (hs : s.widthAndLogical = .ok (w, e)) (ht : t.widthAndLogical = .ok (v, e)) :
    t.dataField packing report = (DataField.withRequested · v) <$> s.dataField packing report := by
  rw [dataField, dataField, hs, ht, hrest]
  change (s.physicalExtent >>= fun physical => _) = _ <$> (s.physicalExtent >>= fun physical => _)
  cases s.physicalExtent with
  | error fault => rfl
  | ok physical =>
    simp only [ok_bind]
    cases (s.flags.getD {}).validate report .variables <;> rfl

theorem Variable.build_eq_map {s t : FieldSpec} {report : ReportKind} {ctx : BuildContext}
    {g : DataField → DataField} (hrest : s.SameRest t)
    (h : t.dataField ctx.packing report = g <$> s.dataField ctx.packing report) :
    build t report ctx = (fun v => { v with field := g v.field }) <$> build s report ctx := by
  have hrange : t.usageRange = s.usageRange := by rw [hrest]
  have husage : t.usage = s.usage := by rw [hrest]
  have hcount : t.fieldCount = s.fieldCount := by rw [hrest]; rfl
  simp only [build, h, hrange, husage, hcount, map_bind, bind_map_left, map_pure]

theorem VariableRange.build_eq_map {s t : FieldSpec} {report : ReportKind} {ctx : BuildContext}
    {g : DataField → DataField} (hrest : s.SameRest t)
    (h : t.dataField ctx.packing report = g <$> s.dataField ctx.packing report) :
    build t report ctx = (fun v => { v with field := g v.field }) <$> build s report ctx := by
  have husages : t.usages = s.usages := by rw [hrest]; rfl
  have hcount : t.count = s.count := by rw [hrest]
  have hofUsages (usages : UsageRange) (field : Except Error DataField) :
      ofUsages usages (g <$> field) =
        (fun v => { v with field := g v.field }) <$> ofUsages usages field := by
    rw [ofUsages, ofUsages]
    split
    · rw [Functor.map_map, Functor.map_map]
    · rfl
  simp only [build, h, husages, hcount, map_bind, hofUsages]

namespace Leaf

variable {s t : FieldSpec} {report : ReportKind} {ctx : BuildContext} {v w : BitWidth} {e : Extent}

theorem build_eq_withRequested (hkind : s.kind = .single ∨ s.kind = .range)
    (hrest : s.SameRest t) (hs : s.widthAndLogical = .ok (w, e))
    (ht : t.widthAndLogical = .ok (v, e)) :
    build t report ctx = (withRequested · v) <$> build s report ctx := by
  have hfield : t.dataField ctx.packing report = _ :=
    FieldSpec.dataField_eq_withRequested hrest hs ht
  have hkinds : t.kind = s.kind := by rw [hrest]
  have hnames : t.name = s.name := by rw [hrest]
  rw [build, build, buildUnnamed, buildUnnamed, hkinds, hnames]
  rcases hkind with hkind | hkind
  · rw [hkind]
    simp only [Variable.build_eq_map hrest hfield]
    cases Variable.build s report ctx <;> rfl
  · rw [hkind]
    simp only [VariableRange.build_eq_map hrest hfield]
    cases VariableRange.build s report ctx <;> rfl

/-- Apart from the width and the extent that come of them, it makes no difference to a variable
how its values are given. -/
theorem build_eq_of_widthAndLogical (hkind : s.kind = .single ∨ s.kind = .range)
    (hrest : s.SameRest t) (hs : s.widthAndLogical = .ok (w, e))
    (ht : t.widthAndLogical = .ok (w, e)) :
    build t report ctx = build s report ctx :=
  (build_eq_withRequested hkind hrest hs ht).trans
    (build_eq_withRequested hkind .rfl hs hs).symm

/-- An extent that tells its width can stand for that width and the way the extent is full. -/
theorem build_bounds_eq (hkind : s.kind = .single ∨ s.kind = .range) (hs : s.Unscaled)
    (sentinel : Sentinel) (hwidth : (sentinel.extent w).minimalWidth = w) :
    build { s with logical := some (sentinel.extent w).bounds } report ctx =
      build { s with size := some w.bits, sentinel := some sentinel } report ctx := by
  have hlogical := FieldSpec.widthAndLogical_of_logical hs (sentinel.fits_extent w).min_le
  rw [hwidth] at hlogical
  exact build_eq_of_widthAndLogical hkind rfl
    (FieldSpec.widthAndLogical_of_sentinel hs w sentinel) hlogical

/-- What is given comes to the width and the extent of the variable. -/
theorem exists_scaled_of_build (hkind : s.kind = .single ∨ s.kind = .range) {l : Leaf}
    (h : build s report ctx = .ok l) :
    ∃ f, l.data? = some f ∧ s.widthAndLogical = .ok (f.size.requested, f.logical) := by
  have hscaled {f : DataField} (hfield : s.dataField ctx.packing report = .ok f) :
      s.widthAndLogical = .ok (f.size.requested, f.logical) := by
    obtain ⟨width, logical, physical, hs, -, -, rfl⟩ := FieldSpec.dataField_eq_ok_iff.1 hfield
    exact hs
  rw [build_eq_ok_iff, buildUnnamed] at h
  rcases hkind with hkind | hkind <;> rw [hkind] at h <;> obtain ⟨v, hv, rfl⟩ := map_eq_ok_iff.1 h
  · obtain ⟨-, -, -, hfield⟩ := Variable.build_eq_ok_iff.1 hv
    exact ⟨v.field, rfl, hscaled hfield⟩
  · obtain ⟨-, -, hfield⟩ := VariableRange.build_eq_ok_iff.1 hv
    exact ⟨v.field, rfl, hscaled hfield⟩

theorem selection_of_build {a : Selection} (h : build s report ctx = .ok (.array a)) :
    a.field.size = ⟨Selection.indexWidth a.usages, ctx.packing⟩ ∧
      a.field.logical = Selection.indices a.usages := by
  obtain ⟨hgrouping, -⟩ | ⟨v, hv, hbuild⟩ | ⟨w, hw⟩ := cases_of_build h
  · cases hgrouping
  · cases hv
    obtain ⟨-, -, -, -, -, -, hfield⟩ := Selection.build_eq_ok_iff.1 hbuild
    rw [hfield]
    exact ⟨rfl, rfl⟩
  · cases hw

theorem exists_build_indices (usages : UsageRange) (usage : DocumentedUsage) (report : ReportKind)
    (ctx : BuildContext) : ∃ l, build {
      kind := .single
      usage := some usage
      logical := some (Selection.indices usages).bounds } report ctx = .ok l :=
  exists_build_iff.2 {
    usage := ⟨usage, rfl⟩
    noRange := rfl
    count := FieldSpec.hasCount_iff.2 ⟨.one, rfl⟩
    scaled := .inr (.inl ⟨rfl, ⟨_, _, rfl, (Selection.fits_indices usages).min_le⟩, rfl⟩)
    physical := fun _ _ h => absurd h.symm (Option.some_ne_none _)
    flags := fun _ f h => absurd h.symm (Option.some_ne_none f) }

theorem exists_indices_of_build {usages : UsageRange} {l : Leaf}
    (hkind : s.kind = .single ∨ s.kind = .range)
    (hlogical : s.logical = some (Selection.indices usages).bounds)
    (h : build s report ctx = .ok l) :
    ∃ f, l.data? = some f ∧ f.size.requested = Selection.indexWidth usages ∧
      f.logical = Selection.indices usages := by
  obtain ⟨f, hf, hscaled⟩ := exists_scaled_of_build hkind h
  obtain ⟨hwidth, hextent⟩ := FieldSpec.eq_of_widthAndLogical hlogical hscaled
  exact ⟨f, hf, hwidth.trans (Selection.minimalWidth_indices usages), hextent⟩

/-- The ways to say which values a variable has agree: a size, the size and which of its extents is
meant, and the extent itself make the same field, or are refused for the same fault. Only the
extent of 32 bits without a sign does not tell the size, and is that of 31. The extent of the
indices of an array, given for a variable, makes it as wide as the array. -/
theorem build_scalings_agree (report : ReportKind) (ctx : BuildContext) :
    (∀ s : FieldSpec, s.kind = .single ∨ s.kind = .range → s.Unscaled →
      (∀ w : BitWidth,
        build { s with size := some w.bits, sentinel := some .signed } report ctx =
          build { s with size := some w.bits } report ctx ∧
        build { s with logical := some (Extent.signed w).bounds } report ctx =
          build { s with size := some w.bits } report ctx ∧
        (w.bits ≤ 31 →
          build { s with logical := some (Extent.unsigned w).bounds } report ctx =
            build { s with size := some w.bits, sentinel := some .unsigned } report ctx)) ∧
      build { s with size := some 32, sentinel := some .unsigned } report ctx =
        (withRequested · .max) <$>
          build { s with size := some 31, sentinel := some .unsigned } report ctx ∧
      ∀ l, build { s with size := some 32, sentinel := some .unsigned } report ctx = .ok l →
        ∃ f, l.data? = some f ∧ f.size.requested.bits = 32 ∧ f.logical = ⟨0, 2147483647⟩) ∧
    ∀ (s : FieldSpec) (a : Selection), build s report ctx = .ok (.array a) →
      a.field.logical.min = 1 ∧ a.field.logical.max.toInt = a.usages.count ∧
      (∀ usage : DocumentedUsage, ∃ l, build {
        kind := .single
        usage := some usage
        logical := some (1, Int32.ofNat a.usages.count) } report ctx = .ok l) ∧
      ∀ t : FieldSpec, t.kind = .single ∨ t.kind = .range →
        t.logical = some (1, Int32.ofNat a.usages.count) →
        ∀ (report' : ReportKind) (ctx' : BuildContext) (l : Leaf), build t report' ctx' = .ok l →
          ∃ f, l.data? = some f ∧ f.size.requested = a.field.size.requested ∧
            f.logical = a.field.logical := by
  constructor
  · intro s hkind hs
    have hmax : FieldSpec.widthAndLogical
        { s with size := some 32, sentinel := some .unsigned } = .ok (.max, .unsigned .max) :=
      FieldSpec.widthAndLogical_of_sentinel hs .max .unsigned
    refine ⟨fun w => ?_, ?_, fun l hl => ?_⟩
    · have hsentinel : build { s with size := some w.bits, sentinel := some .signed } report ctx =
          build { s with size := some w.bits } report ctx :=
        build_eq_of_widthAndLogical hkind rfl (FieldSpec.widthAndLogical_of_size hs w)
          (FieldSpec.widthAndLogical_of_sentinel hs w .signed)
      exact ⟨hsentinel,
        (build_bounds_eq hkind hs .signed (Extent.minimalWidth_signed w)).trans hsentinel,
        fun hw => build_bounds_eq hkind hs .unsigned (Extent.minimalWidth_unsigned hw)⟩
    · exact build_eq_withRequested hkind rfl
        (FieldSpec.widthAndLogical_of_sentinel hs ⟨31, by omega, by omega⟩ .unsigned) hmax
    · obtain ⟨f, hf, hscaled⟩ := exists_scaled_of_build
        (s := { s with size := some 32, sentinel := some .unsigned }) hkind hl
      rw [hmax, Except.ok.injEq, Prod.mk.injEq] at hscaled
      exact ⟨f, hf, hscaled.1 ▸ rfl, hscaled.2 ▸ Extent.unsigned_max⟩
  · intro s a ha
    obtain ⟨hsize, hlogical⟩ := selection_of_build ha
    rw [hsize, hlogical]
    exact ⟨rfl, Selection.max_indices a.usages,
      fun usage => exists_build_indices a.usages usage report ctx,
      fun t hkind ht report' ctx' l hl => exists_indices_of_build hkind ht hl⟩

/-- Eight bits are given in four ways, and four keys make a variable of three bits. -/
theorem build_scalings_agree_axis :
    build { kind := .single, usage := some ⟨⟨1, 0x30⟩, []⟩, logical := some (-128, 127) } .input {} =
        build { kind := .single, usage := some ⟨⟨1, 0x30⟩, []⟩, size := some 8 } .input {} ∧
      build { kind := .single, usage := some ⟨⟨1, 0x30⟩, []⟩, logical := some (0, 255) } .input {} =
        build {
          kind := .single
          usage := some ⟨⟨1, 0x30⟩, []⟩
          size := some 8
          sentinel := some .unsigned } .input {} ∧
      ∃ l f, build {
          kind := .single
          usage := some ⟨⟨1, 0x30⟩, []⟩
          logical := some (1, 4) } .input {} = .ok l ∧
        l.data? = some f ∧ f.size.requested.bits = 3 := by
  obtain ⟨hvariables, harrays⟩ := build_scalings_agree .input {}
  let axis : FieldSpec := { kind := .single, usage := some ⟨⟨1, 0x30⟩, []⟩ }
  obtain ⟨hsizes, -⟩ := hvariables axis (.inl rfl) ⟨rfl, rfl, rfl⟩
  obtain ⟨-, hsigned, hunsigned⟩ := hsizes ⟨8, by omega, by omega⟩
  have hbyte : (Extent.signed ⟨8, by omega, by omega⟩).bounds = (-128, 127) := by decide
  have hubyte : (Extent.unsigned ⟨8, by omega, by omega⟩).bounds = (0, 255) := by decide
  rw [hbyte] at hsigned
  rw [hubyte] at hunsigned
  obtain ⟨-, -, hexists, hsame⟩ := harrays _ _ Sample.keys_of_build
  obtain ⟨l, hl⟩ := hexists ⟨⟨1, 0x30⟩, []⟩
  obtain ⟨f, hf, hsize, -⟩ := hsame _ (.inl rfl) rfl .input {} l hl
  refine ⟨hsigned, hunsigned (by decide), l, f, hl, hf, ?_⟩
  rw [hsize]
  rfl

end Leaf

end ReportDescriptor
