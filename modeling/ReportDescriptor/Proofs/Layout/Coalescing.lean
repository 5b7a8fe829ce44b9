import ReportDescriptor.Proofs.Layout.Edit
import ReportDescriptor.Proofs.Layout.Overspan
import ReportDescriptor.Proofs.Layout.Settle

/-!
# Merging paddings

A merger replaces two neighbouring paddings by one of the same length. All other fields stay at
their bits, and the merged padding does not overspan, so whatever was unspanned remains so.
-/

namespace ReportDescriptor

namespace Layout

theorem of_merged? {offset : Nat} {a b : Leaf} {w : BitWidth} (h : merged? offset a b = some w) :
    ∃ u v, a = .padding u ∧ b = .padding v ∧ w.bits = u.bits + v.bits ∧
      offset % 8 + w.bits ≤ 32 := by
  cases a with
  | padding u =>
    cases b with
    | padding v =>
      obtain ⟨hadd, hover⟩ := Option.filter_eq_some_iff.1 h
      rw [Bool.not_eq_true', overspans_one_eq_false_iff] at hover
      exact ⟨u, v, rfl, rfl, BitWidth.bits_of_add? hadd, hover⟩
    | single v => cases h
    | range v => cases h
    | array s => cases h
  | single v => cases h
  | range v => cases h
  | array s => cases h

theorem merged?_of_not_padding (offset : Nat) {a b : Leaf}
    (h : a.isPadding = false ∨ b.isPadding = false) : merged? offset a b = none := by
  cases hmerged : merged? offset a b with
  | none => rfl
  | some w =>
    obtain ⟨u, v, rfl, rfl, -⟩ := of_merged? hmerged
    rcases h with h | h <;> cases h

theorem of_firstMerger? {index offset : Nat} {ls : List Leaf} {e : Edit}
    (h : firstMerger? index offset ls = some e) :
    ∃ pre u v post w, ls = pre ++ .padding u :: .padding v :: post ∧
      e = .mergePadding (index + pre.length) w ∧ w.bits = u.bits + v.bits ∧
      (offset + total Leaf.bits pre) % 8 + w.bits ≤ 32 := by
  induction ls generalizing index offset with
  | nil => cases h
  | cons a ls ih =>
    cases ls with
    | nil => cases h
    | cons b ls =>
      rw [firstMerger?] at h
      cases hmerged : merged? offset a b with
      | some w =>
        rw [hmerged] at h
        obtain ⟨u, v, rfl, rfl, hbits, hreach⟩ := of_merged? hmerged
        exact ⟨[], u, v, ls, w, rfl, (Option.some.inj h).symm, hbits, hreach⟩
      | none =>
        rw [hmerged] at h
        obtain ⟨pre, u, v, post, w, hls, he, hbits, hreach⟩ := ih h
        refine ⟨a :: pre, u, v, post, w, by rw [hls, List.cons_append], ?_, hbits, ?_⟩
        · rw [he, List.length_cons, Nat.add_assoc, Nat.add_comm 1]
        · rw [total_cons, ← Nat.add_assoc]
          exact hreach

theorem of_merge? {f g : FieldForest} {records : List LogRecord}
    (h : merge? f = some (records, g)) :
    ∃ pre u v post w, f.leaves = pre ++ .padding u :: .padding v :: post ∧
      w.bits = u.bits + v.bits ∧ total Leaf.bits pre % 8 + w.bits ≤ 32 ∧
      records = [.edit (.mergePadding pre.length w)] ∧
      g = Edit.apply f (.mergePadding pre.length w) := by
  simp only [merge?, Option.bind_eq_bind, Option.bind_eq_some_iff, Option.pure_def,
    Option.some.injEq, Prod.mk.injEq] at h
  obtain ⟨e, he, hrecords, hg⟩ := h
  obtain ⟨pre, u, v, post, w, hleaves, rfl, hbits, hreach⟩ := of_firstMerger? he
  rw [Nat.zero_add] at hrecords hg hreach
  exact ⟨pre, u, v, post, w, hleaves, hbits, hreach, hrecords.symm, hg.symm⟩

/-- One merger puts a single padding in the place of two. -/
theorem leaves_of_merge? {f g : FieldForest} {records : List LogRecord}
    (h : merge? f = some (records, g)) :
    ∃ pre u v post w, f.leaves = pre ++ .padding u :: .padding v :: post ∧
      w.bits = u.bits + v.bits ∧ total Leaf.bits pre % 8 + w.bits ≤ 32 ∧
      g.leaves = pre ++ .padding w :: post := by
  obtain ⟨pre, u, v, post, w, hleaves, hbits, hreach, -, rfl⟩ := of_merge? h
  exact ⟨pre, u, v, post, w, hleaves, hbits, hreach, Edit.leaves_mergePadding hleaves w⟩

theorem total_of_merge? {f g : FieldForest} {records : List LogRecord}
    (h : merge? f = some (records, g)) : g.bits = f.bits := by
  obtain ⟨pre, u, v, post, w, hf, hbits, -, hg⟩ := leaves_of_merge? h
  simp only [FieldForest.bits, hf, hg, total_append, total_cons, Leaf.bits_padding, hbits]
  omega

theorem unspanned_of_merge? {f g : FieldForest} {records : List LogRecord}
    (hf : Unspanned 0 f.leaves) (h : merge? f = some (records, g)) : Unspanned 0 g.leaves := by
  obtain ⟨pre, u, v, post, w, hleaves, hbits, hreach, hg⟩ := leaves_of_merge? h
  simp only [hleaves, unspanned_append, unspanned_cons, Leaf.bits_padding, Nat.zero_add] at hf
  have hmerged := unspanned_padding.2 hreach
  simp only [hg, unspanned_append, unspanned_cons, Leaf.bits_padding, Nat.zero_add, hbits]
  exact ⟨hf.1, hmerged.1, by simpa only [Nat.add_assoc] using hf.2.2.2⟩

@[simp] theorem bits_coalescePadding (f : FieldForest) : (coalescePadding f).2.bits = f.bits :=
  settle_induction (fun _ _ _ hg h => (total_of_merge? h).trans hg) _ rfl

theorem unspanned_coalescePadding {f : FieldForest} (h : Unspanned 0 f.leaves) :
    Unspanned 0 (coalescePadding f).2.leaves :=
  settle_induction (P := fun g => Unspanned 0 g.leaves)
    (fun _ _ _ hg h => unspanned_of_merge? hg h) _ h

end Layout

end ReportDescriptor
