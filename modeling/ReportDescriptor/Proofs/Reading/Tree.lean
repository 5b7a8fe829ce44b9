import ReportDescriptor.Descriptor.Basic
import ReportDescriptor.Proofs.Forest.Scan
import ReportDescriptor.Proofs.Reading.Reader

/-!
# Fields as a reader should see them

The values that each field of a report stands for, in the collections it is in. Padding has no
meaning of its own: a reader finds it under the attributes of the field before it.
-/

namespace ReportDescriptor

def DataField.attributes (f : DataField) : Attributes where
  logicalMinimum := f.logical.min
  logicalMaximum := f.logical.max
  physicalMinimum := f.declaredPhysical.min
  physicalMaximum := f.declaredPhysical.max
  unitExponent := f.unitExponent.getD .zero
  unit := f.unit.getD .none

namespace Leaf

def usagesAt : Leaf → Nat → List Usage
  | single v, _ => [v.usage.toUsage]
  | range v, i => [⟨v.usages.page, UInt16.ofNat (v.usages.first.id.toNat + i)⟩]
  | array s, _ => s.usages.usages
  | padding _, _ => []

/-- The attributes in force after a field. -/
def attributesAfter (inherited : Attributes) (l : Leaf) : Attributes :=
  l.data?.elim inherited DataField.attributes

/-- The values of a field that starts at bit `start` of a report. -/
def slots (report : ReportKind) (id start : Nat) (inherited : Attributes) (l : Leaf) :
    List Slot :=
  (List.range l.count.value).map fun i =>
    { report := report
      id := id
      offset := start + i * l.size.adjusted
      size := l.size.adjusted
      usages := l.usagesAt i
      attributes := l.attributesAfter inherited
      grouping := l.grouping
      alternates := l.flags.alternates }

end Leaf

def Collection.head (c : Collection) : CollectionHead :=
  ⟨c.kind.type, c.usage.toUsage⟩

def lastAttributes (inherited : Attributes) (ls : List Leaf) : Attributes :=
  ls.foldl Leaf.attributesAfter inherited

@[simp] theorem lastAttributes_append (a : Attributes) (as bs : List Leaf) :
    lastAttributes a (as ++ bs) = lastAttributes (lastAttributes a as) bs :=
  List.foldl_append

namespace FieldForest

/-- The bit that a reader has reached and the attributes in force there, after one more field. -/
def advance (p : Nat × Attributes) (l : Leaf) : Nat × Attributes :=
  (p.1 + l.bits, l.attributesAfter p.2)

theorem foldl_advance (p : Nat × Attributes) (ls : List Leaf) :
    ls.foldl advance p = (p.1 + total Leaf.bits ls, lastAttributes p.2 ls) := by
  induction ls generalizing p with
  | nil => rfl
  | cons l ls ih => rw [List.foldl_cons, ih, advance, total_cons, Nat.add_assoc]; rfl

/-- What fields are read as that stand in a report behind other fields. -/
def reading (report : ReportKind) (id : Nat) (p : Nat × Attributes) (f : FieldForest) :
    SlotForest :=
  f.scan Collection.head advance (fun p l => l.slots report id p.1 p.2) p

/-- The values of the fields of a report. Each field starts where those before it end. -/
def tree (report : ReportKind) (id : Nat) (f : FieldForest) : SlotForest :=
  f.scan Collection.head (fun start l => start + l.bits)
    (fun start l => l.slots (l.report?.getD report) id start {}) 0

end FieldForest

def Report.tree (r : Report) : SlotForest :=
  r.children.tree r.kind r.id.toNat

def Application.tree (a : Application) : SlotForest :=
  .node ⟨.application, a.usage.toUsage⟩ (Forest.join (a.reports.map Report.tree)) .nil

/-- What a descriptor is to say: its applications, the collections of their reports, and the
values of the fields in them. -/
def Descriptor.tree (d : Descriptor) : SlotForest :=
  Forest.join (d.applications.map Application.tree)

namespace Slot

/-- A value without usages is padding, and its attributes mean nothing. -/
def meaning (s : Slot) : Slot :=
  if s.usages.isEmpty then { s with attributes := {} } else s

end Slot

theorem Leaf.usagesAt_eq_nil_iff (l : Leaf) (i : Nat) :
    l.usagesAt i = [] ↔ l.isPadding = true := by
  cases l with
  | array s =>
    have hlen : s.usages.usages.length ≠ 0 := by
      have hcount := s.usages.two_le_count
      rw [UsageRange.length_usages]
      omega
    simp only [usagesAt, isPadding, Bool.false_eq_true, iff_false]
    exact fun h => hlen (congrArg List.length h)
  | single v => simp [usagesAt, isPadding]
  | range v => simp [usagesAt, isPadding]
  | padding w => simp [usagesAt, isPadding]

theorem Leaf.map_meaning_slots (report : ReportKind) (id start : Nat) (a : Attributes)
    (l : Leaf) :
    (l.slots report id start a).map Slot.meaning = l.slots report id start {} := by
  rw [slots, List.map_map, slots]
  apply List.map_congr_left
  intro i _
  cases hpad : l.isPadding with
  | true =>
    have husages := (l.usagesAt_eq_nil_iff i).2 hpad
    have hdata := (l.data?_eq_none_iff).2 hpad
    simp [Slot.meaning, husages, attributesAfter, hdata]
  | false =>
    have husages : l.usagesAt i ≠ [] := by
      intro h
      simp [(l.usagesAt_eq_nil_iff i).1 h] at hpad
    obtain ⟨f, hf⟩ : ∃ f, l.data? = some f := by
      cases hdata : l.data? with
      | none => simp [(l.data?_eq_none_iff).1 hdata] at hpad
      | some f => exact ⟨f, rfl⟩
    simp [Slot.meaning, husages, attributesAfter, hf]

/-- Whatever stands before them, fields of a report mean the same. -/
theorem FieldForest.mapLeaves_meaning_reading {report : ReportKind} {id : Nat}
    {a : Attributes} {f : FieldForest}
    (h : ∀ l ∈ f.leaves, ∀ k, l.report? = some k → k = report) :
    (f.reading report id (0, a)).mapLeaves Slot.meaning = f.tree report id := by
  apply Forest.mapLeaves_scan (R := fun p start => p.1 = start)
  · rintro p start l rfl
    rfl
  · rintro p start l hl rfl
    have hkind : l.report?.getD report = report := by
      cases hk : l.report? with
      | none => rfl
      | some k => exact h l hl k hk
    rw [Leaf.map_meaning_slots, hkind]
  · rfl

end ReportDescriptor
