import ReportDescriptor.Report

/-!
# Building collections and reports

When a collection or a report can be built from fields, and what it then is.
-/

namespace ReportDescriptor

theorem FieldForest.isOnlyPadding_eq_false_iff {f : FieldForest} :
    f.isOnlyPadding = false ↔ ∃ l ∈ f.leaves, l.isPadding = false := by
  rw [isOnlyPadding, List.all_eq_false]
  simp only [Bool.not_eq_true]

theorem FieldForest.isEmpty_of_isOnlyPadding_eq_false {f : FieldForest}
    (h : f.isOnlyPadding = false) : f.isEmpty = false := by
  cases f with
  | nil => cases h
  | leaf l rest => rfl
  | node c children rest => rfl

theorem Collection.build_eq_ok_iff {c : Collection} {children t : FieldForest} :
    c.build children = .ok t ↔
      (∃ l ∈ children.leaves, l.isPadding = false) ∧ t = .node c children .nil := by
  rw [build, ← FieldForest.isOnlyPadding_eq_false_iff]
  cases hpad : children.isOnlyPadding with
  | true => cases children.isEmpty <;> simp
  | false => simp [FieldForest.isEmpty_of_isOnlyPadding_eq_false hpad, eq_comm]

namespace Report

theorem any_mismatch_eq_false_iff {kind : ReportKind} {ls : List Leaf} :
    (ls.any fun l => l.report?.any (· ≠ kind)) = false ↔
      ∀ l ∈ ls, ∀ k, l.report? = some k → k = kind := by
  rw [List.any_eq_false]
  constructor
  · intro h l hl k hk
    have hany := h l hl
    rw [hk] at hany
    simpa using hany
  · intro h l hl
    cases hk : l.report? with
    | none => simp
    | some k => simp [h l hl k hk]

theorem build_eq_ok_iff {kind : ReportKind} {id : UInt8} {children : FieldForest} {r : Report} :
    (build kind id children).result = .ok r ↔
      id ≠ 0 ∧ children.isEmpty = false ∧
        (∀ l ∈ children.leaves, ∀ k, l.report? = some k → k = kind) ∧
        (layout children).2.isOnlyPadding = false ∧ r = ⟨kind, id, (layout children).2⟩ := by
  rw [build, ← any_mismatch_eq_false_iff]
  by_cases hid : id = 0
  · simp [hid, Logged.ofExcept]
  · cases hempty : children.isEmpty with
    | true => simp [hid, Logged.ofExcept]
    | false =>
      cases children.leaves.any fun l => l.report?.any (· ≠ kind) with
      | true => simp [hid, Logged.ofExcept]
      | false =>
        cases hpad : (layout children).2.isOnlyPadding with
        | true => simp [hid, hpad, Logged.ofExcept, Logged.write]
        | false => simp [hid, hpad, Logged.write, eq_comm]

theorem records_of_build {kind : ReportKind} {id : UInt8} {children : FieldForest} {r : Report}
    (h : (build kind id children).result = .ok r) :
    (build kind id children).records = .layingOut kind id :: (layout children).1 := by
  obtain ⟨hid, hempty, hkinds, hdata, -⟩ := build_eq_ok_iff.1 h
  rw [← any_mismatch_eq_false_iff] at hkinds
  rw [build, if_neg hid, hempty, hkinds, if_neg Bool.false_ne_true, if_neg Bool.false_ne_true]
  simp [hdata, Logged.write]

end Report

end ReportDescriptor
