import ReportDescriptor.Descriptor.Basic
import ReportDescriptor.Proofs.Forest.Relabel

/-!
# Kinds erased

Two usages compare equal if their values are, whatever kinds they are documented for, and two
fields, reports or descriptors do if their usages do and the rest of them is the same. So they
compare equal just if nothing but kinds is different: if they are the same with the kinds erased.
-/

namespace ReportDescriptor

variable {α β γ δ : Type} [BEq α] [BEq β]

/-- What compares equal is what `bare` does not tell apart. -/
def IsErasure (bare : α → γ) : Prop :=
  ∀ a b, (a == b) = true ↔ bare a = bare b

namespace IsErasure

theorem map {bare : α → γ} (h : IsErasure bare) : IsErasure (List.map bare) := by
  intro as bs
  induction as generalizing bs with
  | nil =>
    cases bs with
    | nil => exact ⟨fun _ => rfl, fun _ => rfl⟩
    | cons b bs => constructor <;> intro h <;> cases h
  | cons a as ih =>
    cases bs with
    | nil => constructor <;> intro h <;> cases h
    | cons b bs =>
      rw [List.cons_beq_cons, Bool.and_eq_true, h a b, ih bs, List.map_cons, List.map_cons,
        List.cons.injEq]

theorem relabel {m : α → γ} {n : β → δ} (hm : IsErasure m) (hn : IsErasure n) :
    IsErasure (Forest.relabel m n) := by
  intro f g
  induction f generalizing g with
  | nil =>
    cases g with
    | nil => exact ⟨fun _ => rfl, fun _ => rfl⟩
    | _ => constructor <;> intro h <;> cases h
  | leaf a rest ih =>
    cases g with
    | leaf a' rest' =>
      change (a == a' && rest == rest') = true ↔ _
      rw [Bool.and_eq_true, hn a a', ih rest', Forest.relabel, Forest.relabel,
        Forest.leaf.injEq]
    | _ => constructor <;> intro h <;> cases h
  | node b children rest ihc ihr =>
    cases g with
    | node b' children' rest' =>
      change (b == b' && (children == children' && rest == rest')) = true ↔ _
      rw [Bool.and_eq_true, Bool.and_eq_true, hm b b', ihc children', ihr rest', Forest.relabel,
        Forest.relabel, Forest.node.injEq]
    | _ => constructor <;> intro h <;> cases h

end IsErasure

namespace DocumentedUsage

/-- The usage alone. -/
def bare (u : DocumentedUsage) : DocumentedUsage :=
  { u with kinds := [] }

theorem isErasure_bare : IsErasure bare := by
  rintro ⟨u, kinds⟩ ⟨v, kinds'⟩
  rw [beq_iff, bare, bare, mk.injEq, and_iff_left rfl]

end DocumentedUsage

namespace UsageRange

def bare (r : UsageRange) : UsageRange :=
  ⟨r.first.bare, r.last.bare, r.page_eq, r.first_lt_last⟩

theorem isErasure_bare : IsErasure bare := by
  intro r s
  change (r.first == s.first && r.last == s.last) = true ↔ _
  rw [Bool.and_eq_true, DocumentedUsage.isErasure_bare, DocumentedUsage.isErasure_bare,
    UsageRange.ext_iff]
  exact Iff.rfl

end UsageRange

namespace Variable

def bare (v : Variable) : Variable :=
  { v with usage := v.usage.bare }

theorem isErasure_bare : IsErasure bare := by
  intro v w
  change (v.usage == w.usage && (v.count == w.count && v.field == w.field)) = true ↔ _
  rw [Bool.and_eq_true, Bool.and_eq_true, DocumentedUsage.isErasure_bare, beq_iff_eq, beq_iff_eq,
    bare, bare, mk.injEq]

theorem combinableWith_bare (v w : Variable) :
    v.bare.combinableWith w.bare = v.combinableWith w := rfl

end Variable

namespace VariableRange

def bare (v : VariableRange) : VariableRange :=
  { v with usages := v.usages.bare, count_le := v.count_le }

theorem isErasure_bare : IsErasure bare := by
  intro v w
  change (v.usages == w.usages && v.field == w.field) = true ↔ _
  rw [Bool.and_eq_true, UsageRange.isErasure_bare, beq_iff_eq, VariableRange.ext_iff]
  exact Iff.rfl

end VariableRange

namespace Selection

def bare (s : Selection) : Selection :=
  { s with usages := s.usages.bare }

theorem isErasure_bare : IsErasure bare := by
  intro s t
  change (s.usages == t.usages && (s.count == t.count && s.field == t.field)) = true ↔ _
  rw [Bool.and_eq_true, Bool.and_eq_true, UsageRange.isErasure_bare, beq_iff_eq, beq_iff_eq,
    bare, bare, mk.injEq]

end Selection

namespace Leaf

def bare : Leaf → Leaf
  | single v => single v.bare
  | range v => range v.bare
  | array s => array s.bare
  | padding w => padding w

theorem isErasure_bare : IsErasure bare := by
  intro l m
  cases l with
  | single v =>
    cases m with
    | single w => exact (Variable.isErasure_bare v w).trans (by rw [bare, bare, single.injEq])
    | _ => constructor <;> intro h <;> cases h
  | range v =>
    cases m with
    | range w => exact (VariableRange.isErasure_bare v w).trans (by rw [bare, bare, range.injEq])
    | _ => constructor <;> intro h <;> cases h
  | array s =>
    cases m with
    | array t => exact (Selection.isErasure_bare s t).trans (by rw [bare, bare, array.injEq])
    | _ => constructor <;> intro h <;> cases h
  | padding w =>
    cases m with
    | padding x =>
      change (w == x) = true ↔ _
      rw [beq_iff_eq, bare, bare, padding.injEq]
    | _ => constructor <;> intro h <;> cases h

variable (l : Leaf)

@[simp] theorem isPadding_bare : l.bare.isPadding = l.isPadding := by
  cases l <;> rfl

@[simp] theorem count_bare : l.bare.count = l.count := by
  cases l <;> rfl

@[simp] theorem size_bare : l.bare.size = l.size := by
  cases l <;> rfl

@[simp] theorem report?_bare : l.bare.report? = l.report? := by
  cases l <;> rfl

@[simp] theorem bits_bare : l.bare.bits = l.bits := by
  rw [bits, bits, count_bare, size_bare]

theorem bare_withRequested (w : BitWidth) : (l.withRequested w).bare = l.bare.withRequested w := by
  cases l <;> rfl

end Leaf

namespace Collection

def bare (c : Collection) : Collection :=
  { c with usage := c.usage.bare }

theorem isErasure_bare : IsErasure bare := by
  intro c d
  change (c.kind == d.kind && c.usage == d.usage) = true ↔ _
  rw [Bool.and_eq_true, DocumentedUsage.isErasure_bare, beq_iff_eq, bare, bare, mk.injEq]

end Collection

namespace FieldForest

def bare (f : FieldForest) : FieldForest :=
  f.relabel Collection.bare Leaf.bare

theorem isErasure_bare : IsErasure bare :=
  Collection.isErasure_bare.relabel Leaf.isErasure_bare

variable (f : FieldForest)

@[simp] theorem leaves_bare : f.bare.leaves = f.leaves.map Leaf.bare :=
  f.leaves_relabel _ _

@[simp] theorem isEmpty_bare : f.bare.isEmpty = f.isEmpty :=
  f.isEmpty_relabel _ _

@[simp] theorem leafPaths_bare : f.bare.leafPaths = f.leafPaths :=
  f.leafPaths_relabel _ _

@[simp] theorem bits_bare : f.bare.bits = f.bits := by
  rw [bits, bits, leaves_bare]
  induction f.leaves with
  | nil => rfl
  | cons l ls ih => rw [List.map_cons, total_cons, ih, l.bits_bare, total_cons]

@[simp] theorem isOnlyPadding_bare : f.bare.isOnlyPadding = f.isOnlyPadding := by
  rw [isOnlyPadding, isOnlyPadding, leaves_bare, List.all_map]
  exact congrArg f.leaves.all (funext Leaf.isPadding_bare)

theorem bare_append (g : FieldForest) : bare (f ++ g) = f.bare ++ g.bare :=
  f.relabel_append _ _ g

theorem append_beq_append {f f' g g' : FieldForest} (hf : f == f') (hg : g == g') :
    f ++ g == f' ++ g' := by
  rw [isErasure_bare] at hf hg ⊢
  rw [bare_append, bare_append, hf, hg]

end FieldForest

namespace Report

def bare (r : Report) : Report :=
  { r with children := r.children.bare }

theorem isErasure_bare : IsErasure bare := by
  intro r s
  change (r.kind == s.kind && (r.id == s.id && r.children == s.children)) = true ↔ _
  rw [Bool.and_eq_true, Bool.and_eq_true, FieldForest.isErasure_bare, beq_iff_eq, beq_iff_eq,
    bare, bare, mk.injEq]

end Report

namespace Application

def bare (a : Application) : Application :=
  ⟨a.usage.bare, a.reports.map .bare⟩

theorem isErasure_bare : IsErasure bare := by
  intro a b
  change (a.usage == b.usage && a.reports == b.reports) = true ↔ _
  rw [Bool.and_eq_true, DocumentedUsage.isErasure_bare, Report.isErasure_bare.map, bare, bare,
    mk.injEq]

end Application

namespace Descriptor

def bare (d : Descriptor) : Descriptor :=
  ⟨d.applications.map .bare⟩

theorem isErasure_bare : IsErasure bare := by
  intro d e
  change (d.applications == e.applications) = true ↔ _
  rw [Application.isErasure_bare.map, bare, bare, mk.injEq]

end Descriptor

end ReportDescriptor
