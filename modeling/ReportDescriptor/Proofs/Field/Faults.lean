import ReportDescriptor.Field.Build

/-!
# Faults of fields

A field names its faults once, and only if it has a name: what is found while it is built comes
under no name, and the name is put in front at the end.
-/

namespace ReportDescriptor

open Error

namespace Error

variable {α β : Type}

/-- Whatever fault there is, it is reported under no name. -/
def Anonymous (x : Except Error α) : Prop :=
  ∀ name source, x ≠ .error (.named name source)

theorem anonymous_require {condition : Bool} {e : Error}
    (he : ∀ name source, e ≠ .named name source) : Anonymous (require condition e) := by
  intro name source h
  cases condition with
  | true => cases h
  | false => exact he name source (Except.error.inj h)

theorem anonymous_demand {requirement : Requirement} {given : Option α} :
    Anonymous (demand requirement given) := by
  cases given <;> exact nofun

theorem Anonymous.bind {x : Except Error α} {f : α → Except Error β} (hx : Anonymous x)
    (hf : ∀ a, Anonymous (f a)) : Anonymous (x >>= f) := by
  cases x with
  | ok a => exact hf a
  | error e => exact fun name source h => hx name source (congrArg _ (Except.error.inj h))

theorem Anonymous.map {x : Except Error α} {f : α → β} (hx : Anonymous x) :
    Anonymous (f <$> x) := by
  cases x with
  | ok a => exact nofun
  | error e => exact fun name source h => hx name source (congrArg _ (Except.error.inj h))

end Error

theorem BitWidth.anonymous_ofNat (n : Nat) : Anonymous (ofNat n) := by
  intro name source h
  rw [ofNat] at h
  split at h <;> cases h

theorem FieldCount.anonymous_ofNat (n : Nat) : Anonymous (ofNat n) := by
  intro name source h
  rw [ofNat] at h
  split at h <;> cases h

theorem Extent.anonymous_ofBounds (q : Quantity) (min max : Int32) :
    Anonymous (ofBounds q min max) := by
  unfold ofBounds
  split <;> exact nofun

theorem UsageRange.anonymous_ofEnds (first last : DocumentedUsage) :
    Anonymous (ofEnds first last) := by
  unfold ofEnds
  split
  · split <;> exact nofun
  · exact nofun

theorem UsageRange.anonymous_ensureKnown (r : UsageRange) (table : UsageTable) :
    Anonymous (r.ensureKnown table) := by
  unfold ensureKnown
  split <;> exact nofun

theorem DataFlags.anonymous_validate (f : DataFlags) (kind : ReportKind) (g : Grouping) :
    Anonymous (f.validate kind g) := by
  unfold validate
  split
  · exact nofun
  · split
    · exact nofun
    · split <;> exact nofun

namespace FieldSpec

variable {s : FieldSpec}

theorem anonymous_widthAndLogical : Anonymous s.widthAndLogical := by
  unfold widthAndLogical
  split
  case h_5 => exact (BitWidth.anonymous_ofNat _).bind fun _ => nofun
  case h_6 => exact (Extent.anonymous_ofBounds _ _ _).bind fun _ => nofun
  case h_7 => exact (BitWidth.anonymous_ofNat _).bind fun _ => nofun
  all_goals exact nofun

theorem anonymous_physicalExtent : Anonymous s.physicalExtent := by
  unfold physicalExtent
  split
  · exact nofun
  · exact (Extent.anonymous_ofBounds _ _ _).map

theorem anonymous_dataField (packing : Packing) (report : ReportKind) :
    Anonymous (s.dataField packing report) :=
  anonymous_widthAndLogical.bind fun _ => anonymous_physicalExtent.bind fun _ =>
    (DataFlags.anonymous_validate _ _ _).bind fun _ => nofun

theorem anonymous_usages : Anonymous s.usages :=
  .bind (anonymous_require nofun) fun _ => .bind anonymous_demand fun _ =>
    UsageRange.anonymous_ofEnds _ _

end FieldSpec

theorem Variable.anonymous_build (s : FieldSpec) (report : ReportKind) (ctx : BuildContext) :
    Anonymous (build s report ctx) :=
  .bind (anonymous_require nofun) fun _ => .bind anonymous_demand fun _ =>
    .bind (FieldCount.anonymous_ofNat _) fun _ =>
      .bind (FieldSpec.anonymous_dataField _ _) fun _ => nofun

theorem VariableRange.anonymous_build (s : FieldSpec) (report : ReportKind) (ctx : BuildContext) :
    Anonymous (build s report ctx) := by
  refine .bind FieldSpec.anonymous_usages fun usages => .bind (anonymous_require nofun) fun _ => ?_
  unfold ofUsages
  split
  · exact (FieldSpec.anonymous_dataField _ _).map
  · exact nofun

theorem Selection.anonymous_build (s : FieldSpec) (report : ReportKind) (ctx : BuildContext) :
    Anonymous (build s report ctx) :=
  .bind FieldSpec.anonymous_usages fun _ => .bind (anonymous_require nofun) fun _ =>
    .bind (anonymous_require nofun) fun _ => .bind (UsageRange.anonymous_ensureKnown _ _) fun _ =>
      .bind (FieldCount.anonymous_ofNat _) fun _ =>
        .bind (DataFlags.anonymous_validate _ _ _) fun _ => nofun

namespace Leaf

theorem anonymous_buildPadding (s : FieldSpec) : Anonymous (buildPadding s) :=
  .bind (anonymous_require nofun) fun _ => .bind (anonymous_require nofun) fun _ =>
    .bind anonymous_demand fun _ => BitWidth.anonymous_ofNat _

theorem anonymous_buildUnnamed (s : FieldSpec) (report : ReportKind) (ctx : BuildContext) :
    Anonymous (buildUnnamed s report ctx) := by
  unfold buildUnnamed
  split
  · exact (Variable.anonymous_build s report ctx).map
  · exact (VariableRange.anonymous_build s report ctx).map
  · exact (Selection.anonymous_build s report ctx).map
  · exact (anonymous_buildPadding s).map

theorem build_eq_error_iff {s : FieldSpec} {report : ReportKind} {ctx : BuildContext} {e : Error} :
    build s report ctx = .error e ↔
      ∃ cause, buildUnnamed s report ctx = .error cause ∧ e = cause.under s.name := by
  unfold build
  cases buildUnnamed s report ctx with
  | ok l => exact ⟨nofun, nofun⟩
  | error cause =>
    constructor
    · exact fun h => ⟨cause, rfl, (Except.error.inj h).symm⟩
    · rintro ⟨cause', hcause, rfl⟩
      obtain rfl := Except.error.inj hcause
      rfl

end Leaf

end ReportDescriptor
