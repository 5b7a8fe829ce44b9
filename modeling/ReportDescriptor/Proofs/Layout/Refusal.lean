import ReportDescriptor.Proofs.Layout.Guarded
import ReportDescriptor.Proofs.Layout.Words

/-!
# Which reports are refused

A report is refused for the first of four reasons: its id, that it has no children, a field for
another kind of report, and that it is nothing but padding. Laying it out comes before the last of
these is looked at, but adds none and takes none away.
-/

namespace ReportDescriptor

namespace FieldForest

variable {f : FieldForest}

theorem isOnlyPadding_iff : f.isOnlyPadding = true ↔ ∀ l ∈ f.leaves, l.isPadding = true :=
  List.all_eq_true

theorem isOnlyPadding_iff_withoutPadding :
    f.isOnlyPadding = true ↔ f.withoutPadding.leaves.length = 0 := by
  rw [isOnlyPadding_iff, withoutPadding, Forest.leaves_filter, List.length_eq_zero_iff,
    List.filter_eq_nil_iff]
  simp only [Bool.not_eq_true', Bool.not_eq_false]

theorem isEmpty_iff : f.isEmpty = true ↔ f = .nil := by
  cases f with
  | nil => exact iff_of_true rfl rfl
  | leaf l rest => exact ⟨nofun, nofun⟩
  | node c children rest => exact ⟨nofun, nofun⟩

end FieldForest

namespace Layout

/-- Paddings come and go, but no field does. -/
theorem Frame.isOnlyPadding_eq {f g : FieldForest} (h : Frame f g) :
    g.isOnlyPadding = f.isOnlyPadding := by
  have hlength := (Forest.Forall₂.leaves h.fields).length_eq
  rw [Bool.eq_iff_iff, FieldForest.isOnlyPadding_iff_withoutPadding,
    FieldForest.isOnlyPadding_iff_withoutPadding, hlength]

end Layout

namespace Report

/-- A report that there is a point in building. -/
structure Sensible (kind : ReportKind) (id : UInt8) (children : FieldForest) : Prop where
  id_ne : id ≠ 0
  children_ne : children ≠ .nil
  kind_eq : ∀ l ∈ children.leaves, ∀ k, l.report? = some k → k = kind
  data : ∃ l ∈ children.leaves, l.isPadding = false

/-- The first reason there is to refuse a report. -/
inductive Refused (kind : ReportKind) (id : UInt8) (children : FieldForest) : Error → Prop
  | id (hid : id = 0) : Refused kind id children (.outOfRange .reportId 0 1 255)
  | children (hid : id ≠ 0) (hchildren : children = .nil) :
      Refused kind id children (.missing .reportChildren)
  | kind (hid : id ≠ 0) (hchildren : children ≠ .nil)
      (hkind : ∃ l ∈ children.leaves, ∃ k, l.report? = some k ∧ k ≠ kind) :
      Refused kind id children (.conflict .reportKindMismatch)
  | padding (hid : id ≠ 0) (hchildren : children ≠ .nil)
      (hkind : ∀ l ∈ children.leaves, ∀ k, l.report? = some k → k = kind)
      (hpadding : ∀ l ∈ children.leaves, l.isPadding = true) :
      Refused kind id children (.onlyPadding .report)

variable {kind : ReportKind} {id : UInt8} {children : FieldForest}

theorem build_eq_ok_iff_sensible {r : Report} : (build kind id children).result = .ok r ↔
    Sensible kind id children ∧ r = ⟨kind, id, (layout children).2⟩ := by
  have hpadding := (Layout.frame_layout children).isOnlyPadding_eq
  rw [build_eq_ok_iff, hpadding, FieldForest.isOnlyPadding_eq_false_iff, Bool.eq_false_iff]
  constructor
  · rintro ⟨hid, hchildren, hkind, hdata, hr⟩
    exact ⟨⟨hid, fun h => hchildren (FieldForest.isEmpty_iff.2 h), hkind, hdata⟩, hr⟩
  · rintro ⟨⟨hid, hchildren, hkind, hdata⟩, hr⟩
    exact ⟨hid, fun h => hchildren (FieldForest.isEmpty_iff.1 h), hkind, hdata, hr⟩

theorem build_eq_error_of_refused {e : Error} (h : Refused kind id children e) :
    (build kind id children).result = .error e := by
  have hmismatch := @any_mismatch_eq_false_iff kind children.leaves
  rw [build]
  cases h with
  | id hid =>
    rw [if_pos hid]
    rfl
  | children hid hchildren =>
    rw [if_neg hid, if_pos (FieldForest.isEmpty_iff.2 hchildren)]
    rfl
  | kind hid hchildren hkind =>
    have hany : (children.leaves.any fun l => l.report?.any (· ≠ kind)) = true := by
      obtain ⟨l, hl, k, hk, hne⟩ := hkind
      rw [← Bool.not_eq_false, hmismatch]
      exact fun h => hne (h l hl k hk)
    rw [if_neg hid, if_neg (mt FieldForest.isEmpty_iff.1 hchildren), if_pos hany]
    rfl
  | padding hid hchildren hkind hpadding =>
    have hlaidOut : (layout children).2.isOnlyPadding = true := by
      rw [(Layout.frame_layout children).isOnlyPadding_eq, FieldForest.isOnlyPadding_iff]
      exact hpadding
    rw [if_neg hid, if_neg (mt FieldForest.isEmpty_iff.1 hchildren),
      if_neg (Bool.eq_false_iff.1 (hmismatch.2 hkind))]
    simp only [hlaidOut, if_pos]
    rfl

/-- What is not refused for any reason is sensible. -/
theorem sensible_or_refused (kind : ReportKind) (id : UInt8) (children : FieldForest) :
    Sensible kind id children ∨ ∃ e, Refused kind id children e := by
  by_cases hid : id = 0
  · exact .inr ⟨_, .id hid⟩
  by_cases hchildren : children = .nil
  · exact .inr ⟨_, .children hid hchildren⟩
  by_cases hkind : ∀ l ∈ children.leaves, ∀ k, l.report? = some k → k = kind
  · by_cases hpadding : ∀ l ∈ children.leaves, l.isPadding = true
    · exact .inr ⟨_, .padding hid hchildren hkind hpadding⟩
    · refine .inl ⟨hid, hchildren, hkind, ?_⟩
      rw [not_forall] at hpadding
      obtain ⟨l, hl⟩ := hpadding
      rw [Classical.not_imp, Bool.not_eq_true] at hl
      exact ⟨l, hl⟩
  · simp only [not_forall, exists_prop] at hkind
    obtain ⟨l, hl, k, hk, hne⟩ := hkind
    exact .inr ⟨_, .kind hid hchildren ⟨l, hl, k, hk, hne⟩⟩

theorem build_eq_error_iff {e : Error} :
    (build kind id children).result = .error e ↔ Refused kind id children e := by
  refine ⟨fun h => ?_, build_eq_error_of_refused⟩
  obtain hsensible | ⟨e', hrefused⟩ := sensible_or_refused kind id children
  · rw [build_eq_ok_iff_sensible.2 ⟨hsensible, rfl⟩] at h
    cases h
  · rw [build_eq_error_of_refused hrefused] at h
    obtain rfl := Except.error.inj h
    exact hrefused

/-- Exactly the sensible reports are built, from the fields as they are laid out; any other is
refused for the first reason there is. Laying out never gives up, in words neither as long as the
total of the result is one, and never turns anything into mere padding or out of it. -/
theorem build_sensible_or_refused (kind : ReportKind) (id : UInt8) (children : FieldForest) :
    (∀ r, (build kind id children).result = .ok r ↔
      Sensible kind id children ∧ r = ⟨kind, id, (layout children).2⟩) ∧
    (∀ e, (build kind id children).result = .error e ↔ Refused kind id children e) ∧
    Guarded.layout children = .ok (layout children) ∧
    Guarded.build kind id children = .ok (build kind id children) ∧
    ((layout children).2.bits < 2 ^ 32 →
      Words.build kind id children = .ok (build kind id children)) ∧
    (layout children).2.isOnlyPadding = children.isOnlyPadding :=
  ⟨fun _ => build_eq_ok_iff_sensible, fun _ => build_eq_error_iff, Guarded.layout_eq children,
    Guarded.build_eq kind id children, fun h => Words.build_eq_of_bits kind id h,
    (Layout.frame_layout children).isOnlyPadding_eq⟩

theorem build_sensible_or_refused_keypad :
    (layout Sample.keypad).2.bits < 2 ^ 32 ∧
      Words.build .input 1 Sample.keypad = .ok (build .input 1 Sample.keypad) ∧
      Sensible .input 1 Sample.keypad ∧
      Refused .input 0 Sample.keypad (.outOfRange .reportId 0 1 255) := by
  have hbits : (layout Sample.keypad).2.bits < 2 ^ 32 := by decide
  obtain ⟨hok, -, -, -, hwords, -⟩ := build_sensible_or_refused .input 1 Sample.keypad
  obtain ⟨-, herror, -⟩ := build_sensible_or_refused .input 0 Sample.keypad
  have hbuild : (build .input 1 Sample.keypad).result = .ok Sample.keypadReport := by decide
  exact ⟨hbits, hwords hbits, ((hok _).1 hbuild).1, (herror _).1 rfl⟩

end Report

end ReportDescriptor
