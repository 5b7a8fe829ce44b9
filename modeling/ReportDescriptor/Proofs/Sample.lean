import ReportDescriptor.Descriptor.Basic
import ReportDescriptor.Proofs.Layout.Fields

/-!
# A small device

A device with one report of each kind, for statements to be tried on. Its fields are of all
sorts: axes that can share an item, a field that has to be moved, and an array of buttons.
-/

namespace ReportDescriptor

namespace Sample

def field (w : BitWidth) (packing : Packing) (kind : ReportKind) : DataField where
  size := ⟨w, packing⟩
  logical := .signed w
  physical := none
  unit := none
  unitExponent := none
  flags := {}
  report := kind

/-- Usage `n` of the generic desktop page. -/
def axis (n : UInt16) (count : FieldCount) (w : BitWidth) (kind : ReportKind) : Leaf :=
  .single ⟨⟨⟨1, n⟩, []⟩, count, field w .tight kind⟩

def buttons (kind : ReportKind) : Leaf :=
  .array ⟨⟨⟨⟨9, 1⟩, []⟩, ⟨⟨9, 3⟩, []⟩, rfl, by decide⟩, .one,
    field ⟨2, Nat.le_succ 1, by omega⟩ (.bytes 1 Nat.one_pos) kind⟩

def fields (kind : ReportKind) : FieldForest :=
  .leaf (axis 0x30 .one ⟨3, by omega, by omega⟩ kind)
    (.leaf (axis 0x31 .one ⟨3, by omega, by omega⟩ kind)
      (.node ⟨.physical, ⟨1, 1⟩, []⟩
        (.leaf (axis 0x38 ⟨3, by omega, by omega⟩ ⟨31, by omega, by omega⟩ kind)
          (.leaf (buttons kind) .nil))
        (.leaf (.padding ⟨5, by omega, by omega⟩) .nil)))

def report (kind : ReportKind) (id : UInt8) : Report :=
  ⟨kind, id, (layout (fields kind)).2⟩

def device : Descriptor :=
  ⟨[⟨⟨⟨1, 2⟩, []⟩, ReportKind.all.map (report · 1)⟩]⟩

/-- One field alone, with the given flags. -/
def lone (flags : DataFlags) : Descriptor :=
  ⟨[⟨⟨⟨1, 2⟩, []⟩, [⟨.input, 1, .leaf (.single ⟨⟨⟨1, 0x30⟩, []⟩, .one,
    { field ⟨8, by omega, by omega⟩ .tight .input with flags }⟩) .nil⟩]⟩]⟩

/-- The same fields, all of them in one collection. -/
def regrouped (kind : ReportKind) : FieldForest :=
  .node ⟨.logical, ⟨1, 2⟩, []⟩ (.prepend (fields kind).leaves .nil) .nil

/-- What may follow the fields: padding that merges with theirs, and one more axis. -/
def further (kind : ReportKind) : FieldForest :=
  .leaf (.padding ⟨3, by omega, by omega⟩)
    (.leaf (axis 0x33 .one ⟨7, by omega, by omega⟩ kind) .nil)

/-- Two axes that can share a main item, between paddings. -/
def pair : FieldForest :=
  .leaf (.padding ⟨8, by omega, by omega⟩)
    (.leaf (axis 0x30 .one ⟨8, by omega, by omega⟩ .input)
      (.leaf (axis 0x31 .one ⟨8, by omega, by omega⟩ .input)
        (.leaf (.padding ⟨8, by omega, by omega⟩) .nil)))

def pairDevice : Descriptor :=
  ⟨[⟨⟨⟨1, 2⟩, []⟩, [⟨.input, 1, pair⟩]⟩]⟩

/-- An axis between two runs of padding, of which the first goes into a collection. -/
def padded : FieldForest :=
  .leaf (.padding ⟨5, by omega, by omega⟩)
    (.node ⟨.logical, ⟨1, 1⟩, []⟩
      (.leaf (.padding ⟨3, by omega, by omega⟩)
        (.leaf (axis 0x30 .one ⟨6, by omega, by omega⟩ .input) .nil))
      (.leaf (.padding ⟨24, by omega, by omega⟩) (.leaf (.padding ⟨16, by omega, by omega⟩) .nil)))

def byteAxis : Variable :=
  ⟨⟨⟨1, 0x30⟩, []⟩, .one, field ⟨8, by omega, by omega⟩ .tight .input⟩

/-- So many fields that can all share a main item. -/
def crowd (n : Nat) : FieldForest :=
  .prepend ((List.replicate n byteAxis).map .single) .nil

def crowdDevice (n : Nat) : Descriptor :=
  ⟨[⟨⟨⟨1, 2⟩, []⟩, [⟨.input, 1, crowd n⟩]⟩]⟩

theorem eq_kind_of_mem_fields (kind : ReportKind) :
    ∀ l ∈ (fields kind).leaves, ∀ k, l.report? = some k → k = kind := by
  intro l hl k hk
  simp only [fields, Forest.leaves_leaf, Forest.leaves_node, Forest.leaves_nil, List.mem_cons,
    List.mem_append, List.not_mem_nil, or_false] at hl
  rcases hl with rfl | rfl | (rfl | rfl) | rfl
  · exact (Option.some.inj hk).symm
  · exact (Option.some.inj hk).symm
  · exact (Option.some.inj hk).symm
  · exact (Option.some.inj hk).symm
  · exact absurd hk.symm (Option.some_ne_none k)

@[simp] theorem leaves_regrouped (kind : ReportKind) :
    (regrouped kind).leaves = (fields kind).leaves := by
  rw [regrouped, Forest.leaves_node, Forest.leaves_prepend, Forest.leaves_nil, List.append_nil,
    List.append_nil]

theorem report_of_build (kind : ReportKind) {id : UInt8} (hid : id ≠ 0) :
    (Report.build kind id (fields kind)).result = .ok (report kind id) := by
  refine Report.build_eq_ok_iff.2 ⟨hid, rfl, eq_kind_of_mem_fields kind, ?_, rfl⟩
  cases kind <;> decide

theorem device_built : ∀ r ∈ device.reports, r.Built := by
  intro r hr
  obtain ⟨a, ha, hr⟩ := List.mem_flatMap.1 hr
  obtain rfl := List.mem_singleton.1 ha
  obtain ⟨kind, -, rfl⟩ := List.mem_map.1 hr
  exact ⟨kind, 1, fields kind, report_of_build kind (by decide)⟩

theorem regrouped_of_build (kind : ReportKind) {id : UInt8} (hid : id ≠ 0) :
    (Report.build kind id (regrouped kind)).result =
      .ok ⟨kind, id, (layout (regrouped kind)).2⟩ := by
  refine Report.build_eq_ok_iff.2 ⟨hid, rfl, ?_, ?_, rfl⟩
  · rw [leaves_regrouped]
    exact eq_kind_of_mem_fields kind
  · cases kind <;> decide

theorem extended_of_build (kind : ReportKind) {id : UInt8} (hid : id ≠ 0) :
    (Report.build kind id (fields kind ++ further kind)).result =
      .ok ⟨kind, id, (layout (fields kind ++ further kind)).2⟩ := by
  refine Report.build_eq_ok_iff.2 ⟨hid, rfl, ?_, ?_, rfl⟩
  · rw [Forest.leaves_append, List.forall_mem_append]
    refine ⟨eq_kind_of_mem_fields kind, ?_⟩
    cases kind <;> decide
  · cases kind <;> decide

end Sample

end ReportDescriptor
