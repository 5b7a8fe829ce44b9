import ReportDescriptor.Proofs.Layout.Legality

/-!
# Layout sees shapes only

What layout does depends on no more of a field than whether it is padding, its size and its count.
Two forests whose leaves agree in these are laid out alike, whatever their collections are: all
searches go through the leaves, and so do, in effect, all edits.
-/

namespace ReportDescriptor

/-- What layout looks at. -/
structure Shape where
  isPadding : Bool
  size : FieldSize
  count : FieldCount
deriving DecidableEq

namespace Leaf

def shape (l : Leaf) : Shape :=
  ⟨l.isPadding, l.size, l.count⟩

variable {l m : Leaf}

theorem size_eq_of_shape_eq (h : l.shape = m.shape) : l.size = m.size :=
  congrArg Shape.size h

theorem count_eq_of_shape_eq (h : l.shape = m.shape) : l.count = m.count :=
  congrArg Shape.count h

theorem bits_eq_of_shape_eq (h : l.shape = m.shape) : l.bits = m.bits := by
  rw [bits, bits, size_eq_of_shape_eq h, count_eq_of_shape_eq h]

theorem shape_withRequested (h : l.shape = m.shape) (w : BitWidth) :
    (l.withRequested w).shape = (m.withRequested w).shape := by
  have hpad : l.isPadding = m.isPadding := congrArg Shape.isPadding h
  simp only [shape, isPadding_withRequested, size_withRequested, count_withRequested, hpad,
    size_eq_of_shape_eq h, count_eq_of_shape_eq h]

theorem exists_eq_padding (h : l.isPadding = true) : ∃ w, l = padding w := by
  cases l with
  | padding w => exact ⟨w, rfl⟩
  | single v => cases h
  | range v => cases h
  | array s => cases h

/-- Padding is nothing but its shape. -/
theorem eq_padding_of_shape_eq {w : BitWidth} (h : l.shape = (padding w).shape) :
    l = padding w := by
  obtain ⟨v, rfl⟩ := exists_eq_padding (congrArg Shape.isPadding h)
  exact congrArg padding (congrArg FieldSize.requested (size_eq_of_shape_eq h))

end Leaf

theorem total_bits_of_shapes_eq {as bs : List Leaf} (h : as.map Leaf.shape = bs.map Leaf.shape) :
    total Leaf.bits as = total Leaf.bits bs := by
  induction as generalizing bs with
  | nil =>
    obtain rfl := List.map_eq_nil_iff.1 h.symm
    rfl
  | cons a as ih =>
    obtain ⟨b, bs, rfl, hb, hbs⟩ := List.map_eq_cons_iff.1 h.symm
    rw [total_cons, total_cons, Leaf.bits_eq_of_shape_eq hb, ih hbs.symm]

/-- Where each field starts, if the first one starts at bit `offset`, and how many bits each of its
values takes. -/
def spans (offset : Nat) : List Leaf → List (Nat × Nat)
  | [] => []
  | l :: ls => (offset, l.size.adjusted) :: spans (offset + l.bits) ls

theorem spans_of_shapes_eq (offset : Nat) {as bs : List Leaf}
    (h : as.map Leaf.shape = bs.map Leaf.shape) : spans offset as = spans offset bs := by
  induction as generalizing bs offset with
  | nil =>
    obtain rfl := List.map_eq_nil_iff.1 h.symm
    rfl
  | cons a as ih =>
    obtain ⟨b, bs, rfl, hb, hbs⟩ := List.map_eq_cons_iff.1 h.symm
    rw [spans, spans, Leaf.size_eq_of_shape_eq hb, Leaf.bits_eq_of_shape_eq hb, ih _ hbs.symm]

namespace Layout

variable {a a' b b' : Leaf} {as bs : List Leaf} {f g : FieldForest}

theorem place_shapes (h : a.shape = b.shape) (offset : Nat) :
    (place offset a).map Leaf.shape = (place offset b).map Leaf.shape := by
  have hsize := Leaf.size_eq_of_shape_eq h
  have hcount := Leaf.count_eq_of_shape_eq h
  cases hover : overspans offset a.size.adjusted a.count.value with
  | false =>
    rw [place_of_not_overspans hover]
    rw [hsize, hcount] at hover
    rw [place_of_not_overspans hover, List.map_singleton, List.map_singleton, h]
  | true =>
    obtain ⟨w, pad, hfit⟩ := Relocation.exists_fitting? offset a.size a.count.value
    rw [place_of_fitting? hover hfit]
    rw [hsize, hcount] at hover hfit
    rw [place_of_fitting? hover hfit, List.map_append, List.map_append, List.map_singleton,
      List.map_singleton, Leaf.shape_withRequested h]

theorem placeAll_shapes (h : as.map Leaf.shape = bs.map Leaf.shape) (offset : Nat) :
    (placeAll offset as).map Leaf.shape = (placeAll offset bs).map Leaf.shape := by
  induction as generalizing bs offset with
  | nil =>
    obtain rfl := List.map_eq_nil_iff.1 h.symm
    rfl
  | cons a as ih =>
    obtain ⟨b, bs, rfl, hb, hbs⟩ := List.map_eq_cons_iff.1 h.symm
    have hplace := place_shapes hb.symm offset
    rw [placeAll, placeAll, List.map_append, List.map_append, hplace,
      total_bits_of_shapes_eq hplace, ih hbs.symm]

theorem shapes_correctOverspans (h : f.leaves.map Leaf.shape = g.leaves.map Leaf.shape) :
    (correctOverspans f).2.leaves.map Leaf.shape =
      (correctOverspans g).2.leaves.map Leaf.shape := by
  rw [leaves_correctOverspans, leaves_correctOverspans, placeAll_shapes h]

theorem shapes_alignToByte (h : f.leaves.map Leaf.shape = g.leaves.map Leaf.shape) :
    (alignToByte f).2.leaves.map Leaf.shape = (alignToByte g).2.leaves.map Leaf.shape := by
  have hbits : f.bits = g.bits := total_bits_of_shapes_eq h
  by_cases hmod : f.bits % 8 = 0
  · rw [alignToByte, dif_pos hmod]
    rw [hbits] at hmod
    rw [alignToByte, dif_pos hmod, h]
  · obtain ⟨w, hw, hf⟩ := leaves_alignToByte f hmod
    rw [hbits] at hmod hw
    obtain ⟨w', hw', hg⟩ := leaves_alignToByte g hmod
    obtain rfl : w = w' := BitWidth.ext (hw.trans hw'.symm)
    rw [hf, hg, List.map_append, List.map_append, h]

theorem merged?_eq_of_shapes_eq (offset : Nat) (ha : a.shape = a'.shape) (hb : b.shape = b'.shape) :
    merged? offset a b = merged? offset a' b' := by
  have hpa : a.isPadding = a'.isPadding := congrArg Shape.isPadding ha
  have hpb : b.isPadding = b'.isPadding := congrArg Shape.isPadding hb
  by_cases h : a.isPadding = false ∨ b.isPadding = false
  · rw [merged?_of_not_padding offset h]
    rw [hpa, hpb] at h
    rw [merged?_of_not_padding offset h]
  · rw [not_or, Bool.not_eq_false, Bool.not_eq_false] at h
    obtain ⟨u, rfl⟩ := Leaf.exists_eq_padding h.1
    obtain ⟨v, rfl⟩ := Leaf.exists_eq_padding h.2
    rw [Leaf.eq_padding_of_shape_eq ha.symm, Leaf.eq_padding_of_shape_eq hb.symm]

theorem firstMerger?_eq_of_shapes_eq (h : as.map Leaf.shape = bs.map Leaf.shape)
    (index offset : Nat) : firstMerger? index offset as = firstMerger? index offset bs := by
  induction as generalizing bs index offset with
  | nil =>
    obtain rfl := List.map_eq_nil_iff.1 h.symm
    rfl
  | cons a as ih =>
    obtain ⟨b, bs, rfl, hb, hbs⟩ := List.map_eq_cons_iff.1 h.symm
    cases as with
    | nil =>
      obtain rfl := List.map_eq_nil_iff.1 hbs
      rfl
    | cons a' as =>
      obtain ⟨b', bs, rfl, hb', hbs'⟩ := List.map_eq_cons_iff.1 hbs
      rw [firstMerger?, firstMerger?, merged?_eq_of_shapes_eq offset hb.symm hb'.symm,
        Leaf.bits_eq_of_shape_eq hb, ih hbs.symm]

/-- The same merger is found in both forests, and does the same to their leaves. -/
theorem merge?_shapes (h : f.leaves.map Leaf.shape = g.leaves.map Leaf.shape) :
    Option.Rel (fun p q => p.2.leaves.map Leaf.shape = q.2.leaves.map Leaf.shape) (merge? f)
      (merge? g) := by
  have hfirst := firstMerger?_eq_of_shapes_eq h 0 0
  cases he : firstMerger? 0 0 f.leaves with
  | none =>
    rw [he] at hfirst
    rw [merge?, merge?, he, ← hfirst]
    exact .none
  | some e =>
    rw [he] at hfirst
    rw [merge?, merge?, he, ← hfirst]
    obtain ⟨pre, u, v, post, w, hf, rfl, -⟩ := of_firstMerger? he
    obtain ⟨pre', u', v', post', w', hg, heq, -⟩ := of_firstMerger? hfirst.symm
    rw [Nat.zero_add, Nat.zero_add, Edit.mergePadding.injEq] at heq
    obtain ⟨hlength, rfl⟩ := heq
    -- Both lists of leaves are split at the same index, so their parts agree one by one.
    have hf' := Edit.leaves_mergePadding hf w
    have hg' := Edit.leaves_mergePadding hg w
    rw [hf, hg, List.map_append, List.map_append] at h
    obtain ⟨hpre, htail⟩ := List.append_inj h (by rw [List.length_map, List.length_map, hlength])
    have hpost := (List.cons.inj (List.cons.inj htail).2).2
    rw [← hlength] at hg'
    refine .some ?_
    simp only [Nat.zero_add, hf', hg', List.map_append, List.map_cons, hpre, hpost]
    rfl

theorem shapes_coalescePadding (h : f.leaves.map Leaf.shape = g.leaves.map Leaf.shape) :
    (coalescePadding f).2.leaves.map Leaf.shape = (coalescePadding g).2.leaves.map Leaf.shape := by
  have hlength : f.leaves.length = g.leaves.length := by
    simpa only [List.length_map] using congrArg List.length h
  rw [coalescePadding, coalescePadding, hlength]
  exact settle_related (R := fun f g => f.leaves.map Leaf.shape = g.leaves.map Leaf.shape)
    (fun _ _ => merge?_shapes) _ h

theorem shapes_layout (h : f.leaves.map Leaf.shape = g.leaves.map Leaf.shape) :
    (layout f).2.leaves.map Leaf.shape = (layout g).2.leaves.map Leaf.shape :=
  shapes_coalescePadding (shapes_alignToByte (shapes_correctOverspans h))

end Layout

namespace Report

/-- Reports of equally shaped fields have their data at the same bits. -/
theorem shapes_of_build {kind kind' : ReportKind} {id id' : UInt8}
    {children children' : FieldForest} {r r' : Report}
    (hr : (build kind id children).result = .ok r)
    (hr' : (build kind' id' children').result = .ok r')
    (h : children.leaves.map Leaf.shape = children'.leaves.map Leaf.shape) :
    r.leaves.map Leaf.shape = r'.leaves.map Leaf.shape ∧
      spans 0 r.leaves = spans 0 r'.leaves ∧ r.sizeInBytes = r'.sizeInBytes := by
  obtain ⟨-, -, -, -, rfl⟩ := build_eq_ok_iff.1 hr
  obtain ⟨-, -, -, -, rfl⟩ := build_eq_ok_iff.1 hr'
  have hshapes : (Report.leaves ⟨kind, id, (layout children).2⟩).map Leaf.shape =
      (Report.leaves ⟨kind', id', (layout children').2⟩).map Leaf.shape := Layout.shapes_layout h
  exact ⟨hshapes, spans_of_shapes_eq 0 hshapes,
    congrArg (· / 8 + 1) (total_bits_of_shapes_eq hshapes)⟩

theorem shapes_of_build_sample :
    (build .input 1 (Sample.fields .input)).result = .ok (Sample.report .input 1) ∧
      (build .output 2 (Sample.regrouped .output)).result =
        .ok ⟨.output, 2, (layout (Sample.regrouped .output)).2⟩ ∧
      (Sample.fields .input).leaves.map Leaf.shape =
        (Sample.regrouped .output).leaves.map Leaf.shape ∧
      (Sample.report .input 1).leaves.map Leaf.shape =
        (layout (Sample.regrouped .output)).2.leaves.map Leaf.shape ∧
      spans 0 (Sample.report .input 1).leaves =
        spans 0 (layout (Sample.regrouped .output)).2.leaves ∧
      (Sample.report .input 1).sizeInBytes =
        Report.sizeInBytes ⟨.output, 2, (layout (Sample.regrouped .output)).2⟩ :=
  have hr := Sample.report_of_build .input (by decide : (1 : UInt8) ≠ 0)
  have hr' := Sample.regrouped_of_build .output (by decide : (2 : UInt8) ≠ 0)
  have hshapes : (Sample.fields .input).leaves.map Leaf.shape =
      (Sample.regrouped .output).leaves.map Leaf.shape := rfl
  ⟨hr, hr', hshapes, shapes_of_build hr hr' hshapes⟩

end Report

end ReportDescriptor
