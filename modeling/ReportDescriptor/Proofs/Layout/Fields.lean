import ReportDescriptor.Proofs.Layout.Coalescing
import ReportDescriptor.Proofs.Layout.Relocation
import ReportDescriptor.Proofs.Report

/-!
# The fields of a layout

Layout adds padding, merges it, and gives fields other widths. What holds of all paddings and of
a field whatever its width is thus kept by the whole layout, such as the kind of report that a
field is for.
-/

namespace ReportDescriptor

namespace Layout

theorem leaves_alignToByte (f : FieldForest) (h : f.bits % 8 ≠ 0) :
    ∃ w : BitWidth, w.bits = 8 - f.bits % 8 ∧
      (alignToByte f).2.leaves = f.leaves ++ [.padding w] := by
  refine ⟨⟨8 - f.bits % 8, by omega, by omega⟩, rfl, ?_⟩
  rw [alignToByte, dif_neg h]
  exact Edit.leaves_appendPadding f _ (UInt32.ofNat (f.bits + (8 - f.bits % 8)))

variable {P : Leaf → Prop}

theorem forall_mem_padBefore (hpadding : ∀ w, P (.padding w)) (pad : Fin 8) :
    ∀ l ∈ padBefore pad, P l := by
  rw [padBefore]
  split
  · exact List.forall_mem_singleton.2 (hpadding _)
  · exact List.forall_mem_nil _

theorem forall_mem_place (hpadding : ∀ w, P (.padding w))
    (hwidth : ∀ l w, P l → P (l.withRequested w)) (offset : Nat) {l : Leaf} (hl : P l) :
    ∀ m ∈ place offset l, P m := by
  cases hover : overspans offset l.size.adjusted l.count.value with
  | false =>
    rw [place_of_not_overspans hover]
    exact List.forall_mem_singleton.2 hl
  | true =>
    obtain ⟨w, pad, hfit⟩ := Relocation.exists_fitting? offset l.size l.count.value
    rw [place_of_fitting? hover hfit, List.forall_mem_append]
    exact ⟨forall_mem_padBefore hpadding pad, List.forall_mem_singleton.2 (hwidth l w hl)⟩

theorem forall_mem_placeAll (hpadding : ∀ w, P (.padding w))
    (hwidth : ∀ l w, P l → P (l.withRequested w)) (offset : Nat) {ls : List Leaf}
    (hls : ∀ l ∈ ls, P l) : ∀ l ∈ placeAll offset ls, P l := by
  induction ls generalizing offset with
  | nil => exact List.forall_mem_nil _
  | cons l ls ih =>
    rw [List.forall_mem_cons] at hls
    rw [placeAll, List.forall_mem_append]
    exact ⟨forall_mem_place hpadding hwidth offset hls.1, ih _ hls.2⟩

theorem forall_mem_alignToByte (hpadding : ∀ w, P (.padding w)) {f : FieldForest}
    (hf : ∀ l ∈ f.leaves, P l) : ∀ l ∈ (alignToByte f).2.leaves, P l := by
  by_cases h : f.bits % 8 = 0
  · rw [alignToByte, dif_pos h]
    exact hf
  · obtain ⟨w, -, hleaves⟩ := leaves_alignToByte f h
    rw [hleaves, List.forall_mem_append]
    exact ⟨hf, List.forall_mem_singleton.2 (hpadding w)⟩

theorem forall_mem_of_merge? (hpadding : ∀ w, P (.padding w)) {f g : FieldForest}
    {records : List LogRecord} (hf : ∀ l ∈ f.leaves, P l) (h : merge? f = some (records, g)) :
    ∀ l ∈ g.leaves, P l := by
  obtain ⟨pre, u, v, post, w, hleaves, -, -, hg⟩ := leaves_of_merge? h
  rw [hleaves, List.forall_mem_append, List.forall_mem_cons, List.forall_mem_cons] at hf
  rw [hg, List.forall_mem_append, List.forall_mem_cons]
  exact ⟨hf.1, hpadding w, hf.2.2.2⟩

theorem forall_mem_coalescePadding (hpadding : ∀ w, P (.padding w)) {f : FieldForest}
    (hf : ∀ l ∈ f.leaves, P l) : ∀ l ∈ (coalescePadding f).2.leaves, P l :=
  settle_induction (P := fun g => ∀ l ∈ g.leaves, P l)
    (fun _ _ _ hg h => forall_mem_of_merge? hpadding hg h) _ hf

end Layout

open Layout

theorem forall_mem_layout {P : Leaf → Prop} (hpadding : ∀ w, P (.padding w))
    (hwidth : ∀ l w, P l → P (l.withRequested w)) {f : FieldForest}
    (hf : ∀ l ∈ f.leaves, P l) : ∀ l ∈ (layout f).2.leaves, P l := by
  apply forall_mem_coalescePadding hpadding
  apply forall_mem_alignToByte hpadding
  rw [leaves_correctOverspans]
  exact forall_mem_placeAll hpadding hwidth 0 hf

namespace Report

/-- Reports come from no other place. -/
def Built (r : Report) : Prop :=
  ∃ kind id children, (build kind id children).result = .ok r

/-- The fields of a report are for reports of its kind. -/
theorem Built.eq_kind {r : Report} (h : r.Built) :
    ∀ l ∈ r.leaves, ∀ k, l.report? = some k → k = r.kind := by
  obtain ⟨kind, id, children, hbuild⟩ := h
  obtain ⟨-, -, hkinds, -, rfl⟩ := build_eq_ok_iff.1 hbuild
  exact forall_mem_layout (P := fun l => ∀ k, l.report? = some k → k = kind)
    (fun _ _ h => nomatch h)
    (fun l w h k hk => h k ((l.report?_withRequested w).symm.trans hk)) hkinds

end Report

end ReportDescriptor
