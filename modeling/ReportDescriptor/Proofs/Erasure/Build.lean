import ReportDescriptor.Field.Build
import ReportDescriptor.Proofs.Erasure.Layout

/-!
# Building does not see kinds

No check that is made on the way from a specification to a descriptor looks at kinds, and what is
built has those it was given. So building commutes with their erasure: from a bare specification
comes the bare field, or the same fault, and so it is with collections, reports, applications and
descriptors.
-/

namespace ReportDescriptor

/-- Without its name and the kinds of its usages. -/
def FieldSpec.bare (s : FieldSpec) : FieldSpec :=
  { s with
    name := none
    usage := s.usage.map .bare
    usageRange := s.usageRange.map (.map .bare .bare) }

section Fields

variable (s : FieldSpec) (report : ReportKind) (ctx : BuildContext)

theorem UsageRange.ofEnds_bare (first last : DocumentedUsage) :
    ofEnds first.bare last.bare = bare <$> ofEnds first last := by
  simp only [ofEnds, apply_dite (Functor.map bare)]
  rfl

theorem FieldSpec.usages_bare : s.bare.usages = UsageRange.bare <$> s.usages := by
  simp only [usages, bare, Option.isNone_map, map_bind]
  refine congrArg _ (funext fun _ => ?_)
  cases s.usageRange with
  | none => rfl
  | some ends => exact UsageRange.ofEnds_bare ends.1 ends.2

theorem Variable.build_bare : build s.bare report ctx = bare <$> build s report ctx := by
  simp only [build, FieldSpec.bare, Option.isNone_map, map_bind]
  cases s.usage <;> rfl

theorem VariableRange.ofUsages_bare (usages : UsageRange) (field : Except Error DataField) :
    ofUsages usages.bare field = bare <$> ofUsages usages field := by
  simp only [ofUsages, apply_dite (Functor.map bare), Functor.map_map]
  rfl

theorem VariableRange.build_bare : build s.bare report ctx = bare <$> build s report ctx := by
  rw [build, build, s.usages_bare, map_bind, bind_map_left]
  refine congrArg _ (funext fun usages => ?_)
  rw [map_bind, ← ofUsages_bare]
  rfl

theorem Selection.build_bare : build s.bare report ctx = bare <$> build s report ctx := by
  rw [build, build, s.usages_bare, map_bind, bind_map_left]
  refine congrArg _ (funext fun usages => ?_)
  simp only [map_bind]
  rfl

theorem Leaf.buildPadding_bare : buildPadding s.bare = buildPadding s := by
  simp only [buildPadding, FieldSpec.bare, Option.isNone_map]
  rfl

theorem Leaf.buildUnnamed_bare :
    buildUnnamed s.bare report ctx = bare <$> buildUnnamed s report ctx := by
  have hkind : s.bare.kind = s.kind := rfl
  rw [buildUnnamed, buildUnnamed, hkind, Variable.build_bare, VariableRange.build_bare,
    Selection.build_bare, buildPadding_bare]
  cases s.kind with
  | single => cases Variable.build s report ctx <;> rfl
  | range => cases VariableRange.build s report ctx <;> rfl
  | array => cases Selection.build s report ctx <;> rfl
  | padding => cases buildPadding s <;> rfl

end Fields

theorem Report.build_bare (kind : ReportKind) (id : UInt8) (f : FieldForest) :
    build kind id f.bare = bare <$> build kind id f := by
  have hkinds : (f.bare.leaves.any fun l => l.report?.any (· ≠ kind)) =
      f.leaves.any fun l => l.report?.any (· ≠ kind) := by
    rw [f.leaves_bare, List.any_map]
    exact congrArg f.leaves.any (funext fun l => by rw [Function.comp_apply, l.report?_bare])
  rw [build, build, f.isEmpty_bare, hkinds, Layout.layout_bare]
  split
  · rfl
  · split
    · rfl
    · split
      · rfl
      · simp only [Layout.bareOutcome, FieldForest.isOnlyPadding_bare, map_bind]
        cases (layout f).2.isOnlyPadding <;> rfl

theorem Collection.build_bare (c : Collection) (children : FieldForest) :
    build c.bare children.bare = FieldForest.bare <$> build c children := by
  rw [build, build, children.isEmpty_bare, children.isOnlyPadding_bare]
  split
  · rfl
  · split <;> rfl

theorem Application.build_bare (usage : DocumentedUsage) (reports : List Report) :
    build usage.bare (reports.map .bare) = bare <$> build usage reports := by
  rw [build, build, List.isEmpty_map]
  split <;> rfl

namespace Descriptor

theorem firstDuplicate?_map_bare (seen : List (ReportKind × UInt8)) (rs : List Report) :
    firstDuplicate? seen (rs.map .bare) = (firstDuplicate? seen rs).map .bare := by
  induction rs generalizing seen with
  | nil => rfl
  | cons r rs ih =>
    rw [List.map_cons, firstDuplicate?, firstDuplicate?, ih, apply_ite (Option.map Report.bare)]
    rfl

theorem build_bare (applications : List Application) :
    build (applications.map .bare) = bare <$> build applications := by
  have hreports : (applications.map Application.bare).flatMap Application.reports =
      (applications.flatMap Application.reports).map .bare := by
    rw [List.flatMap_map, List.map_flatMap]
    rfl
  rw [build, build, List.isEmpty_map, hreports, firstDuplicate?_map_bare]
  split
  · rfl
  · cases firstDuplicate? [] (applications.flatMap Application.reports) <;> rfl

end Descriptor

end ReportDescriptor
