import ReportDescriptor.Proofs.Layout.Legality

/-!
# Layout is stable

After layout no field overspans, the last byte is full, and no two paddings are left that could be
merged: a merger takes away a leaf, so there have been mergers enough. Hence layout finds nothing
to do on what it has made, and a report built once more is the same report.
-/

namespace ReportDescriptor

namespace Layout

theorem length_leaves_of_merge? {f g : FieldForest} {records : List LogRecord}
    (h : merge? f = some (records, g)) : g.leaves.length < f.leaves.length := by
  obtain ⟨pre, u, v, post, w, hf, -, -, hg⟩ := leaves_of_merge? h
  rw [hf, hg, List.length_append, List.length_append, List.length_cons, List.length_cons,
    List.length_cons]
  omega

theorem merge?_coalescePadding (f : FieldForest) : merge? (coalescePadding f).2 = none :=
  change?_settle_eq_none (fun _ _ _ => length_leaves_of_merge?) (Nat.le_refl _)

theorem layout_of_settled {f : FieldForest} (hunspanned : Unspanned 0 f.leaves)
    (hbytes : f.bits % 8 = 0) (hmerged : merge? f = none) : (layout f).2 = f := by
  have hmoved : (correctOverspans f).2 = f :=
    settle_of_eq_none (relocate?_eq_none_iff.2 hunspanned) _
  have haligned : (alignToByte f).2 = f := by
    rw [alignToByte, dif_pos hbytes]
  have hcoalesced : (coalescePadding f).2 = f := settle_of_eq_none hmerged _
  simp only [layout, hmoved, haligned, hcoalesced]

theorem layout_layout (f : FieldForest) : (layout (layout f).2).2 = (layout f).2 :=
  layout_of_settled (unspanned_layout f) (bits_layout_mod f) (merge?_coalescePadding _)

end Layout

namespace Report

/-- A report can be built again from what it holds, and comes out as it was. -/
theorem build_of_build {kind : ReportKind} {id : UInt8} {children : FieldForest} {r : Report}
    (h : (build kind id children).result = .ok r) :
    (build r.kind r.id r.children).result = .ok r := by
  have hkinds := Built.eq_kind ⟨kind, id, children, h⟩
  obtain ⟨hid, -, -, hdata, rfl⟩ := build_eq_ok_iff.1 h
  have hstable := Layout.layout_layout children
  have hsome := FieldForest.isEmpty_of_isOnlyPadding_eq_false hdata
  refine build_eq_ok_iff.2 ⟨hid, hsome, hkinds, ?_, ?_⟩
  · rw [hstable]
    exact hdata
  · rw [hstable]

theorem build_of_build_sample :
    (build .input 1 (Sample.fields .input)).result = .ok (Sample.report .input 1) ∧
      (build .input 1 (Sample.report .input 1).children).result = .ok (Sample.report .input 1) :=
  have hbuild := Sample.report_of_build .input (by decide : (1 : UInt8) ≠ 0)
  ⟨hbuild, build_of_build hbuild⟩

end Report

end ReportDescriptor
