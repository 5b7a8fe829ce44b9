import ReportDescriptor.Proofs.Layout.Frame

/-!
# Appended fields

Layout goes from left to right: where a field comes to lie depends on the fields before it, and
paddings are merged without moving a field. So fields that are put after others leave these where
they would lie alone, although the paddings around the border may differ.
-/

namespace ReportDescriptor

namespace Layout

/-- The fields that are not padding, each with the bit it starts at. -/
def placements (offset : Nat) : List Leaf → List (Nat × Leaf)
  | [] => []
  | l :: ls =>
    if l.isPadding then placements (offset + l.bits) ls
    else (offset, l) :: placements (offset + l.bits) ls

@[simp] theorem placements_padding (offset : Nat) (w : BitWidth) (ls : List Leaf) :
    placements offset (.padding w :: ls) = placements (offset + w.bits) ls := by
  rw [placements, Leaf.bits_padding, Leaf.isPadding, if_pos rfl]

theorem placements_append (offset : Nat) (as bs : List Leaf) :
    placements offset (as ++ bs) =
      placements offset as ++ placements (offset + total Leaf.bits as) bs := by
  induction as generalizing offset with
  | nil => rfl
  | cons a as ih =>
    rw [List.cons_append, placements, placements, ih, total_cons, Nat.add_assoc]
    split
    · rfl
    · rw [List.cons_append]

theorem map_snd_placements (offset : Nat) (ls : List Leaf) :
    (placements offset ls).map Prod.snd = ls.filter fun l => !l.isPadding := by
  induction ls generalizing offset with
  | nil => rfl
  | cons l ls ih =>
    rw [placements]
    cases hpad : l.isPadding with
    | true => rw [if_pos rfl, ih, List.filter_cons_of_neg (by simp [hpad])]
    | false =>
      rw [if_neg Bool.false_ne_true, List.map_cons, ih, List.filter_cons_of_pos (by simp [hpad])]

/-- The merged padding is as long as the two were. -/
theorem placements_of_merge? {f g : FieldForest} {records : List LogRecord}
    (h : merge? f = some (records, g)) : placements 0 g.leaves = placements 0 f.leaves := by
  obtain ⟨pre, u, v, post, w, hf, hbits, -, hg⟩ := leaves_of_merge? h
  rw [hf, hg, placements_append, placements_append, placements_padding, placements_padding,
    placements_padding, hbits]
  simp only [Nat.add_assoc]

theorem placements_coalescePadding (f : FieldForest) :
    placements 0 (coalescePadding f).2.leaves = placements 0 f.leaves :=
  settle_induction (P := fun g => placements 0 g.leaves = placements 0 f.leaves)
    (fun _ _ _ hg h => (placements_of_merge? h).trans hg) _ rfl

theorem placements_alignToByte (f : FieldForest) :
    placements 0 (alignToByte f).2.leaves = placements 0 f.leaves := by
  by_cases h : f.bits % 8 = 0
  · rw [alignToByte, dif_pos h]
  · obtain ⟨w, -, hleaves⟩ := leaves_alignToByte f h
    rw [hleaves, placements_append, placements_padding, placements, List.append_nil]

/-- Where fields lie is settled when the overspanning ones have been moved. -/
theorem placements_layout (f : FieldForest) :
    placements 0 (layout f).2.leaves = placements 0 (placeAll 0 f.leaves) := by
  rw [layout, placements_coalescePadding, placements_alignToByte, leaves_correctOverspans]

theorem placements_layout_prefix (f g : FieldForest) :
    placements 0 (layout f).2.leaves <+: placements 0 (layout (f ++ g)).2.leaves := by
  rw [placements_layout, placements_layout, Forest.leaves_append, placeAll_append,
    placements_append]
  exact List.prefix_append _ _

end Layout

namespace Report

open Layout

/-- The fields of `f` are the fields of its report, no narrower than they were. With more fields
after them they are the first ones of the report, of the same widths and at the same bits. -/
theorem placements_prefix_of_build {kind : ReportKind} {id : UInt8} {f g : FieldForest}
    {r r' : Report} (hr : (build kind id f).result = .ok r)
    (hr' : (build kind id (f ++ g)).result = .ok r') :
    List.Forall₂ Leaf.Widened (f.leaves.filter fun l => !l.isPadding)
      ((placements 0 r.leaves).map Prod.snd) ∧
    placements 0 r.leaves <+: placements 0 r'.leaves := by
  obtain ⟨-, -, -, -, rfl⟩ := build_eq_ok_iff.1 hr
  obtain ⟨-, -, -, -, rfl⟩ := build_eq_ok_iff.1 hr'
  have hfields := (frame_layout f).fields.leaves
  rw [FieldForest.withoutPadding, FieldForest.withoutPadding, Forest.leaves_filter,
    Forest.leaves_filter] at hfields
  rw [map_snd_placements]
  exact ⟨hfields, placements_layout_prefix f g⟩

theorem placements_prefix_sample :
    (build .input 1 (Sample.fields .input)).result = .ok (Sample.report .input 1) ∧
      (build .input 1 (Sample.fields .input ++ Sample.further .input)).result =
        .ok ⟨.input, 1, (layout (Sample.fields .input ++ Sample.further .input)).2⟩ ∧
      List.Forall₂ Leaf.Widened ((Sample.fields .input).leaves.filter fun l => !l.isPadding)
        ((placements 0 (Sample.report .input 1).leaves).map Prod.snd) ∧
      placements 0 (Sample.report .input 1).leaves <+:
        placements 0 (layout (Sample.fields .input ++ Sample.further .input)).2.leaves :=
  have hr := Sample.report_of_build .input (by decide : (1 : UInt8) ≠ 0)
  have hr' := Sample.extended_of_build .input (by decide : (1 : UInt8) ≠ 0)
  ⟨hr, hr', placements_prefix_of_build hr hr'⟩

end Report

end ReportDescriptor
