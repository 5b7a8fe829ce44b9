import ReportDescriptor.Proofs.Descriptor
import ReportDescriptor.Proofs.Field.Build
import ReportDescriptor.Proofs.Layout.Frame

/-!
# What can be constructed

Fields come from specifications, or are taken from reports that have been laid out and are put
into others. What holds of every field built from a specification, and still does when the field is
widened, holds of all fields there are.
-/

namespace ReportDescriptor

inductive Leaf.Constructible : Leaf → Prop
  | built {s : FieldSpec} {report : ReportKind} {ctx : BuildContext} {l : Leaf}
      (h : Leaf.build s report ctx = .ok l) : Constructible l
  | laidOut {kind : ReportKind} {id : UInt8} {children : FieldForest} {r : Report} {l : Leaf}
      (hchildren : ∀ l ∈ children.leaves, Constructible l)
      (h : (Report.build kind id children).result = .ok r) (hl : l ∈ r.leaves) : Constructible l

def Report.Constructible (r : Report) : Prop :=
  ∃ kind id, ∃ children : FieldForest, (∀ l ∈ children.leaves, l.Constructible) ∧
    (Report.build kind id children).result = .ok r

def Descriptor.Constructible (d : Descriptor) : Prop :=
  ∃ as, Descriptor.build as = .ok d ∧ ∀ a ∈ as, ∃ usage reports,
    Application.build usage reports = .ok a ∧ ∀ r ∈ reports, r.Constructible

theorem Leaf.build_padding (w : BitWidth) (report : ReportKind) (ctx : BuildContext) :
    Leaf.build { kind := .padding, size := some w.bits } report ctx = .ok (.padding w) := by
  rw [build_eq_ok_iff, buildUnnamed, map_eq_ok_iff]
  exact ⟨w, buildPadding_eq_ok_iff.2 ⟨⟨rfl, rfl, rfl, rfl, rfl, rfl, rfl, rfl⟩, rfl, rfl⟩, rfl⟩

theorem forall_mem_of_forall₂ {α β : Type} {R : α → β → Prop} {P : α → Prop} {Q : β → Prop}
    (hR : ∀ a b, R a b → P a → Q b) {as : List α} {bs : List β} (h : List.Forall₂ R as bs)
    (has : ∀ a ∈ as, P a) : ∀ b ∈ bs, Q b := by
  induction h with
  | nil => exact List.forall_mem_nil _
  | cons hab _ ih =>
    rw [List.forall_mem_cons] at has ⊢
    exact ⟨hR _ _ hab has.1, ih has.2⟩

/-- Laying out keeps what holds of paddings and survives widening. -/
theorem forall_mem_layout_of_widened {P : Leaf → Prop} (hpadding : ∀ w, P (.padding w))
    (hwidened : ∀ l m, l.Widened m → P l → P m) {f : FieldForest} (hf : ∀ l ∈ f.leaves, P l) :
    ∀ l ∈ (layout f).2.leaves, P l := by
  have hfields := (Layout.frame_layout f).fields.leaves
  rw [FieldForest.withoutPadding, FieldForest.withoutPadding, Forest.leaves_filter,
    Forest.leaves_filter] at hfields
  have hdata := forall_mem_of_forall₂ hwidened hfields
    fun l hl => hf l (List.mem_of_mem_filter hl)
  intro l hl
  cases hpad : l.isPadding with
  | false => exact hdata l (List.mem_filter.2 ⟨hl, by rw [hpad]; rfl⟩)
  | true =>
    cases l with
    | padding w => exact hpadding w
    | _ => cases hpad

theorem Leaf.Constructible.induction {P : Leaf → Prop}
    (hbuilt : ∀ s report ctx l, Leaf.build s report ctx = .ok l → P l)
    (hwidened : ∀ l m, l.Widened m → P l → P m) {l : Leaf} (h : l.Constructible) : P l := by
  induction h with
  | built h => exact hbuilt _ _ _ _ h
  | @laidOut kind id children r l hchildren h hl ih =>
    obtain ⟨-, -, -, -, rfl⟩ := Report.build_eq_ok_iff.1 h
    exact forall_mem_layout_of_widened
      (fun w => hbuilt _ _ _ _ (Leaf.build_padding w kind {})) hwidened ih l hl

theorem Report.Constructible.leaves {r : Report} (h : r.Constructible) :
    ∀ l ∈ r.leaves, l.Constructible := by
  obtain ⟨kind, id, children, hchildren, hbuild⟩ := h
  exact fun l hl => .laidOut hchildren hbuild hl

theorem Report.Constructible.isBuilt {r : Report} (h : r.Constructible) : r.Built := by
  obtain ⟨kind, id, children, -, hbuild⟩ := h
  exact ⟨kind, id, children, hbuild⟩

theorem Descriptor.Constructible.reports {d : Descriptor} (h : d.Constructible) :
    ∀ r ∈ d.reports, r.Constructible := by
  obtain ⟨as, hbuild, has⟩ := h
  obtain ⟨-, -, rfl⟩ := Descriptor.build_eq_ok_iff.1 hbuild
  intro r hr
  obtain ⟨a, ha, hr⟩ := List.mem_flatMap.1 hr
  obtain ⟨usage, reports, happlication, hreports⟩ := has a ha
  rw [Application.build] at happlication
  split at happlication
  · cases happlication
  · obtain rfl := Except.ok.inj happlication
    exact hreports r hr

namespace Sample

def letters : UsageRange :=
  ⟨⟨⟨7, 4⟩, []⟩, ⟨⟨7, 7⟩, []⟩, rfl, by decide⟩

/-- An index into four keys, which is set relative to the last. -/
def keys : Leaf :=
  .array ⟨letters, .one, {
    size := ⟨Selection.indexWidth letters, .tight⟩
    logical := Selection.indices letters
    physical := none
    unit := none
    unitExponent := none
    flags := { relation := some .alternate }
    report := .input }⟩

def keypad : FieldForest :=
  .leaf keys (.node ⟨.physical, ⟨1, 1⟩, []⟩ (.leaf (.single byteAxis) .nil) .nil)

def keypadReport : Report :=
  ⟨.input, 1, (layout keypad).2⟩

def keypadDevice : Descriptor :=
  ⟨[⟨⟨⟨1, 6⟩, []⟩, [keypadReport]⟩]⟩

theorem keys_of_build :
    Leaf.build {
      kind := .array
      usageRange := some (⟨⟨7, 4⟩, []⟩, ⟨⟨7, 7⟩, []⟩)
      flags := some { relation := some .alternate } } .input {} = .ok keys := by
  decide

theorem axis_of_build (n : UInt16) (count : FieldCount) (w : BitWidth) (kind : ReportKind) :
    Leaf.build {
      kind := .single
      usage := some ⟨⟨1, n⟩, []⟩
      size := some w.bits
      count := some count.value } kind {} = .ok (axis n count w kind) := by
  have hfield : FieldSpec.dataField {
      kind := .single
      usage := some ⟨⟨1, n⟩, []⟩
      size := some w.bits
      count := some count.value } .tight kind = .ok (field w .tight kind) :=
    FieldSpec.dataField_eq_ok_iff.2 ⟨w, .signed w, none,
      FieldSpec.widthAndLogical_eq_ok_iff.2 (.inl ⟨rfl, rfl, rfl⟩), rfl,
      DataFlags.validate_variables_eq_ok_iff.2 fun _ => rfl, rfl⟩
  rw [Leaf.build_eq_ok_iff, Leaf.buildUnnamed, map_eq_ok_iff]
  exact ⟨_, Variable.build_eq_ok_iff.2 ⟨rfl, rfl, rfl, hfield⟩, rfl⟩

theorem keypadReport_constructible : keypadReport.Constructible := by
  refine ⟨.input, 1, keypad, ?_, Report.build_eq_ok_iff.2 ⟨by decide, rfl, ?_, ?_, rfl⟩⟩
  · exact List.forall_mem_cons.2 ⟨.built keys_of_build,
      List.forall_mem_singleton.2 (.built (axis_of_build _ _ _ _))⟩
  · decide
  · decide

theorem keypadDevice_constructible : keypadDevice.Constructible :=
  ⟨_, rfl, List.forall_mem_singleton.2 ⟨_, _, rfl,
    List.forall_mem_singleton.2 keypadReport_constructible⟩⟩

end Sample

end ReportDescriptor
