import ReportDescriptor.Proofs.Layout.Fields
import ReportDescriptor.Proofs.Sample

/-!
# Legal reports

A report that can be built is legal on the wire: it takes whole bytes, and none of its values
reaches beyond 32 bits from the start of the byte it starts in. Relocation achieves the second;
the padding at the end and the mergers that follow keep it.
-/

namespace ReportDescriptor

namespace Layout

theorem bits_alignToByte_mod (f : FieldForest) : (alignToByte f).2.bits % 8 = 0 := by
  by_cases h : f.bits % 8 = 0
  · rw [alignToByte, dif_pos h]
    exact h
  · obtain ⟨w, hw, hleaves⟩ := leaves_alignToByte f h
    rw [FieldForest.bits, hleaves, total_append, total_cons, total_nil, Leaf.bits_padding, hw]
    rw [FieldForest.bits] at h ⊢
    omega

/-- The padding at the end begins in the last byte of the fields and fills it up. -/
theorem unspanned_alignToByte {f : FieldForest} (h : Unspanned 0 f.leaves) :
    Unspanned 0 (alignToByte f).2.leaves := by
  by_cases hmod : f.bits % 8 = 0
  · rw [alignToByte, dif_pos hmod]
    exact h
  · obtain ⟨w, hw, hleaves⟩ := leaves_alignToByte f hmod
    rw [hleaves, unspanned_append, unspanned_padding, hw, Nat.zero_add]
    rw [FieldForest.bits] at hmod ⊢
    exact ⟨h, by omega⟩

end Layout

open Layout

theorem bits_layout_mod (f : FieldForest) : (layout f).2.bits % 8 = 0 := by
  simp only [layout, bits_coalescePadding]
  exact bits_alignToByte_mod _

theorem unspanned_layout (f : FieldForest) : Unspanned 0 (layout f).2.leaves :=
  unspanned_coalescePadding (unspanned_alignToByte (unspanned_correctOverspans f))

theorem Unspanned.reach_le {offset : Nat} {pre post : List Leaf} {l : Leaf}
    (h : Unspanned offset (pre ++ l :: post)) {i : Nat} (hi : i < l.count.value) :
    (offset + total Leaf.bits pre + i * l.size.adjusted) % 8 + l.size.adjusted ≤ 32 := by
  rw [unspanned_append, unspanned_cons] at h
  exact overspans_eq_false_iff.1 h.2.1 i hi

namespace Report

/-- What a host may rely on. The start of a value is counted in bits from the start of the
report's data: the fields before its field, then the values before it. -/
structure WireLegal (r : Report) : Prop where
  wholeBytes : r.bits % 8 = 0
  reach_le : ∀ pre l post, r.leaves = pre ++ l :: post → ∀ i < l.count.value,
    (total Leaf.bits pre + i * l.size.adjusted) % 8 + l.size.adjusted ≤ 32
  hasData : ∃ l ∈ r.leaves, l.isPadding = false
  sizeInBytes_eq : r.sizeInBytes * 8 - 8 = r.bits

theorem wireLegal_of_build {kind : ReportKind} {id : UInt8} {children : FieldForest} {r : Report}
    (h : (build kind id children).result = .ok r) : r.WireLegal := by
  obtain ⟨-, -, -, hdata, rfl⟩ := build_eq_ok_iff.1 h
  have hbits : Report.bits ⟨kind, id, (layout children).2⟩ % 8 = 0 := bits_layout_mod children
  refine ⟨hbits, ?_, ?_, ?_⟩
  · intro pre l post hleaves i hi
    have hunspanned := unspanned_layout children
    rw [show (layout children).2.leaves = pre ++ l :: post from hleaves] at hunspanned
    simpa only [Nat.zero_add] using hunspanned.reach_le hi
  · rw [FieldForest.isOnlyPadding, List.all_eq_false] at hdata
    obtain ⟨l, hl, hpad⟩ := hdata
    exact ⟨l, hl, Bool.not_eq_true _ ▸ hpad⟩
  · rw [sizeInBytes]
    omega

theorem wireLegal_sample :
    (build .input 1 (Sample.fields .input)).result = .ok (Sample.report .input 1) ∧
      (Sample.report .input 1).WireLegal :=
  have hbuild := Sample.report_of_build .input (by decide : (1 : UInt8) ≠ 0)
  ⟨hbuild, wireLegal_of_build hbuild⟩

end Report

end ReportDescriptor
