import ReportDescriptor.Proofs.Sample

/-!
# Building descriptors

When a descriptor can be built from applications, and which report is to blame if it can not. The
reports of one that can be built are told apart by their kinds and ids.
-/

namespace ReportDescriptor

/-- No two of the reports have both kind and id in common. -/
def Distinct (rs : List Report) : Prop :=
  rs.Pairwise fun q r => (q.kind, q.id) ≠ (r.kind, r.id)

theorem distinct_append {rs rs' : List Report} :
    Distinct (rs ++ rs') ↔ Distinct rs ∧ Distinct rs' ∧
      ∀ q ∈ rs, ∀ r ∈ rs', (q.kind, q.id) ≠ (r.kind, r.id) :=
  List.pairwise_append

theorem distinct_cons {r : Report} {rs : List Report} :
    Distinct (r :: rs) ↔ (∀ q ∈ rs, (r.kind, r.id) ≠ (q.kind, q.id)) ∧ Distinct rs :=
  List.pairwise_cons

namespace Descriptor

theorem firstDuplicate?_eq_none_iff {seen : List (ReportKind × UInt8)} {rs : List Report} :
    firstDuplicate? seen rs = none ↔ (∀ r ∈ rs, (r.kind, r.id) ∉ seen) ∧ Distinct rs := by
  induction rs generalizing seen with
  | nil => simp [firstDuplicate?, Distinct]
  | cons r rs ih =>
    rw [firstDuplicate?, distinct_cons, List.forall_mem_cons]
    by_cases hr : (r.kind, r.id) ∈ seen
    · simp [hr]
    · rw [if_neg hr, ih]
      constructor
      · intro ⟨hseen, hrs⟩
        refine ⟨⟨hr, fun q hq h => hseen q hq (List.mem_cons_of_mem _ h)⟩, ?_, hrs⟩
        intro q hq h
        exact hseen q hq (h ▸ List.mem_cons_self)
      · intro ⟨⟨_, hseen⟩, hne, hrs⟩
        refine ⟨fun q hq h => ?_, hrs⟩
        rcases List.mem_cons.1 h with h | h
        · exact hne q hq h.symm
        · exact hseen q hq h

theorem build_eq_ok_iff {as : List Application} {d : Descriptor} :
    build as = .ok d ↔ as.isEmpty = false ∧ Distinct d.reports ∧ d = ⟨as⟩ := by
  rw [build, reports]
  cases hempty : as.isEmpty with
  | true => simp
  | false =>
    rw [if_neg Bool.false_ne_true]
    cases hdup : firstDuplicate? [] (as.flatMap Application.reports) with
    | some r =>
      constructor
      · exact fun h => nomatch h
      · rintro ⟨-, hdistinct, rfl⟩
        have hnone := firstDuplicate?_eq_none_iff.2
          ⟨fun r _ => List.not_mem_nil, hdistinct⟩
        rw [hdup] at hnone
        cases hnone
    | none =>
      have hdistinct := (firstDuplicate?_eq_none_iff.1 hdup).2
      constructor
      · intro h
        obtain rfl := Except.ok.inj h
        exact ⟨rfl, hdistinct, rfl⟩
      · rintro ⟨-, -, rfl⟩
        rfl

theorem build_eq_error_of_firstDuplicate? {as : List Application} {r : Report}
    (h : firstDuplicate? [] (as.flatMap Application.reports) = some r) :
    build as = .error (.duplicateReportId r.kind r.id) := by
  have hne : as.isEmpty = false := by
    cases as with
    | nil => cases h
    | cons a as => rfl
  rw [build, hne, if_neg Bool.false_ne_true, h]

/-- Behind reports that are told apart, what has been seen is what they are told apart by. -/
theorem firstDuplicate?_append {seen : List (ReportKind × UInt8)} {pre rs : List Report}
    (h : firstDuplicate? seen pre = none) :
    firstDuplicate? seen (pre ++ rs) =
      firstDuplicate? ((pre.map fun q => (q.kind, q.id)).reverse ++ seen) rs := by
  induction pre generalizing seen with
  | nil => rfl
  | cons q pre ih =>
    rw [firstDuplicate?] at h
    split at h
    case isTrue => cases h
    case isFalse hq =>
      rw [List.cons_append, firstDuplicate?, if_neg hq, ih h, List.map_cons, List.reverse_cons,
        List.append_assoc, List.singleton_append]

theorem firstDuplicate?_eq_some_iff {seen : List (ReportKind × UInt8)} {rs : List Report}
    {r : Report} : firstDuplicate? seen rs = some r ↔
      ∃ pre post, rs = pre ++ r :: post ∧ firstDuplicate? seen pre = none ∧
        ((r.kind, r.id) ∈ seen ∨ ∃ q ∈ pre, (q.kind, q.id) = (r.kind, r.id)) := by
  constructor
  · intro h
    induction rs generalizing seen with
    | nil => cases h
    | cons q rs ih =>
      rw [firstDuplicate?] at h
      split at h
      case isTrue hq =>
        obtain rfl := Option.some.inj h
        exact ⟨[], rs, rfl, rfl, .inl hq⟩
      case isFalse hq =>
        obtain ⟨pre, post, rfl, hpre, hr⟩ := ih h
        refine ⟨q :: pre, post, rfl, ?_, ?_⟩
        · rw [firstDuplicate?, if_neg hq, hpre]
        · rcases hr with hr | ⟨p, hp, hpr⟩
          · rcases List.mem_cons.1 hr with hrq | hr
            · exact .inr ⟨q, List.mem_cons_self, hrq.symm⟩
            · exact .inl hr
          · exact .inr ⟨p, List.mem_cons_of_mem q hp, hpr⟩
  · rintro ⟨pre, post, rfl, hpre, hr⟩
    have hseen : (r.kind, r.id) ∈ (pre.map fun q => (q.kind, q.id)).reverse ++ seen := by
      rwa [List.mem_append, List.mem_reverse, List.mem_map, or_comm]
    rw [firstDuplicate?_append hpre, firstDuplicate?, if_pos hseen]

/-- The first of the reports whose kind and id are those of one before it. -/
def FirstRepeated (rs : List Report) (r : Report) : Prop :=
  ∃ pre post, rs = pre ++ r :: post ∧ Distinct pre ∧ ∃ q ∈ pre, (q.kind, q.id) = (r.kind, r.id)

theorem firstRepeated_iff {rs : List Report} {r : Report} :
    FirstRepeated rs r ↔ firstDuplicate? [] rs = some r := by
  have hdistinct (pre : List Report) : firstDuplicate? [] pre = none ↔ Distinct pre := by
    simp only [firstDuplicate?_eq_none_iff, List.not_mem_nil, not_false_eq_true, implies_true,
      true_and]
  simp only [firstDuplicate?_eq_some_iff, hdistinct, List.not_mem_nil, false_or, FirstRepeated]

theorem exists_firstRepeated {rs : List Report} (h : ¬ Distinct rs) :
    ∃ r, FirstRepeated rs r := by
  cases hdup : firstDuplicate? [] rs with
  | none => exact absurd (firstDuplicate?_eq_none_iff.1 hdup).2 h
  | some r => exact ⟨r, firstRepeated_iff.2 hdup⟩

/-- A descriptor is built from one or more applications if all their reports together are told
apart by kind and id. If they are not, the first that repeats one before it is reported. -/
theorem build_distinct_or_duplicate (as : List Application) :
    ((∃ d, build as = .ok d) ↔ as ≠ [] ∧ Distinct (as.flatMap Application.reports)) ∧
    (∀ d, build as = .ok d → d.applications = as) ∧
    (as = [] → build as = .error (.missing .applications)) ∧
    (¬ Distinct (as.flatMap Application.reports) →
      ∃ r, FirstRepeated (as.flatMap Application.reports) r) ∧
    ∀ r, FirstRepeated (as.flatMap Application.reports) r →
      build as = .error (.duplicateReportId r.kind r.id) := by
  refine ⟨?_, ?_, ?_, exists_firstRepeated, ?_⟩
  · rw [ne_eq, ← List.isEmpty_iff, Bool.not_eq_true]
    constructor
    · rintro ⟨d, h⟩
      obtain ⟨hne, hdistinct, rfl⟩ := build_eq_ok_iff.1 h
      exact ⟨hne, hdistinct⟩
    · rintro ⟨hne, hdistinct⟩
      exact ⟨⟨as⟩, build_eq_ok_iff.2 ⟨hne, hdistinct, rfl⟩⟩
  · intro d h
    obtain ⟨-, -, rfl⟩ := build_eq_ok_iff.1 h
    rfl
  · rintro rfl
    rfl
  · exact fun r h => build_eq_error_of_firstDuplicate? (firstRepeated_iff.1 h)

/-- The output report of the second application repeats one of the first, and comes before the
input report that does. -/
theorem build_twoApplications :
    let first : Application :=
      ⟨⟨⟨1, 2⟩, []⟩, [Sample.report .input 1, Sample.report .output 1]⟩
    let second : Application := ⟨⟨⟨1, 6⟩, []⟩,
      [Sample.report .feature 1, Sample.report .output 1, Sample.report .input 1]⟩
    ¬ Distinct ([first, second].flatMap Application.reports) ∧
      FirstRepeated ([first, second].flatMap Application.reports) (Sample.report .output 1) ∧
      build [first, second] = .error (.duplicateReportId .output 1) ∧
      ∃ d, build [first] = .ok d := by
  intro first second
  obtain ⟨hok, -, -, -, hduplicate⟩ := build_distinct_or_duplicate [first, second]
  have hrepeated : FirstRepeated ([first, second].flatMap Application.reports)
      (Sample.report .output 1) :=
    ⟨[Sample.report .input 1, Sample.report .output 1, Sample.report .feature 1],
      [Sample.report .input 1], rfl, by simp [Distinct, Sample.report],
      Sample.report .output 1, by simp, rfl⟩
  have herror := hduplicate _ hrepeated
  refine ⟨fun hdistinct => ?_, hrepeated, herror, ?_⟩
  · obtain ⟨d, hd⟩ := hok.2 ⟨List.cons_ne_nil _ _, hdistinct⟩
    rw [herror] at hd
    cases hd
  · exact (build_distinct_or_duplicate [first]).1.2
      ⟨List.cons_ne_nil _ _, by simp [Distinct, Sample.report, first]⟩

end Descriptor

end ReportDescriptor
