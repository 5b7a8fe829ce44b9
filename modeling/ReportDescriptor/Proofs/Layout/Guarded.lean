import ReportDescriptor.Layout.Guarded
import ReportDescriptor.Proofs.Constructible
import ReportDescriptor.Proofs.Layout.Stability

/-!
# The layout never fails

Whatever the layout takes for granted holds: a field of 32 bits at the start of a byte never
overspans, the indices of all changes are those of leaves, and each pass makes no more changes than
there are leaves. So the guarded layout of any fields is the layout itself.
-/

namespace ReportDescriptor

namespace Guarded

open Layout

variable {f : FieldForest}

theorem first?_eq (index offset : Nat) (ls : List Leaf) :
    first? index offset ls = .ok (Relocation.first? index offset ls) := by
  induction ls generalizing index offset with
  | nil => rfl
  | cons l ls ih =>
    rw [first?, Relocation.first?]
    split
    · obtain ⟨w, pad, hfit⟩ := Relocation.exists_fitting? offset l.size l.count.value
      rw [fitting, hfit]
      rfl
    · exact ih _ _

/-- The width of padding that is inserted or appended is that of a byte at most. -/
theorem paddingWidth_eq {n : Nat} (h₁ : 1 ≤ n) (h : n ≤ 32) : paddingWidth n = .ok ⟨n, h₁, h⟩ := by
  rw [paddingWidth, BitWidth.ofNat, dif_pos ⟨h₁, h⟩]
  rfl

/-- Every index of a leaf leads there. -/
theorem exists_path {i : Nat} {l : Leaf} (h : f.leaves[i]? = some l) :
    ∃ p, f.leafPaths[i]? = some p ∧ path f i = .ok p ∧ leafAt f p = .ok l := by
  obtain ⟨p, hp, hleaf⟩ := Forest.exists_leafPath h
  refine ⟨p, hp, ?_, ?_⟩
  · rw [path, hp]
    rfl
  · rw [leafAt, hleaf]
    rfl

theorem spliceAt_eq {p : Path} {l : Leaf} (h : leafAt f p = .ok l) (g : Leaf → List Leaf) :
    spliceAt g f p = .ok (f.spliceAt g p) := by
  rw [spliceAt, h]
  rfl

/-- The leaves that an edit changes are there. -/
def InBounds (f : FieldForest) : Edit → Prop
  | .grow i _ _ => i < f.leaves.length
  | .insertPadding _ i => i < f.leaves.length
  | .appendPadding _ _ => True
  | .mergePadding i _ => i + 1 < f.leaves.length

theorem apply_eq {e : Edit} (h : InBounds f e) : apply f e = .ok (Edit.apply f e) := by
  cases e with
  | grow i old new =>
    obtain ⟨p, hp, hpath, hleaf⟩ := exists_path (List.getElem?_eq_getElem h)
    rw [apply, hpath, ok_bind, spliceAt_eq hleaf, Edit.apply, Forest.splice, hp]
  | insertPadding w i =>
    obtain ⟨p, hp, hpath, hleaf⟩ := exists_path (List.getElem?_eq_getElem h)
    rw [apply, hpath, ok_bind, spliceAt_eq hleaf, Edit.apply, Forest.splice, hp]
  | appendPadding w total => rfl
  | mergePadding i combined =>
    obtain ⟨p, hp, hpath, hleaf⟩ := exists_path (List.getElem?_eq_getElem (Nat.lt_of_succ_lt h))
    obtain ⟨q, hq, hpath', -⟩ := exists_path (List.getElem?_eq_getElem h)
    -- The first leaf has changed by then, but the path to the second is the same.
    have hgrown := Forest.leafPaths_spliceAt_single (fun l => l.withRequested combined) f p
    have hlength : (f.spliceAt (fun l => [l.withRequested combined]) p).leaves.length =
        f.leaves.length := by
      rw [← Forest.length_leafPaths, hgrown, Forest.length_leafPaths]
    have hlater : i + 1 < (f.spliceAt (fun l => [l.withRequested combined]) p).leaves.length := by
      rw [hlength]
      exact h
    obtain ⟨q', hq', -, hleaf'⟩ := exists_path (List.getElem?_eq_getElem hlater)
    rw [hgrown, hq] at hq'
    obtain rfl := Option.some.inj hq'
    rw [apply, hpath, ok_bind, hpath', ok_bind, spliceAt_eq hleaf, ok_bind, spliceAt_eq hleaf',
      Edit.apply, hp, hq]

/-- Growing a leaf and inserting padding before it can be done in any order, since its index stays
that of a leaf. -/
theorem foldlM_apply_eq {pre post : List Leaf} {l : Leaf} (h : f.leaves = pre ++ l :: post)
    {es : List Edit} (hes : ∀ e ∈ es,
      (∃ old new, e = .grow pre.length old new) ∨ ∃ w, e = .insertPadding w pre.length) :
    es.foldlM apply f = .ok (Edit.applyAll f es) := by
  induction es generalizing f l post with
  | nil => rfl
  | cons e es ih =>
    obtain ⟨he, hlater⟩ := List.forall_mem_cons.1 hes
    have hbound : pre.length < f.leaves.length := by
      rw [h, List.length_append, List.length_cons]
      omega
    rw [List.foldlM_cons, Edit.applyAll_cons]
    rcases he with ⟨old, new, rfl⟩ | ⟨w, rfl⟩
    · rw [apply_eq (e := .grow pre.length old new) hbound, ok_bind,
        ih (Edit.leaves_grow h old new) hlater]
    · rw [apply_eq (e := .insertPadding w pre.length) hbound, ok_bind,
        ih (Edit.leaves_insertPadding h w) hlater]

theorem relocate?_eq (f : FieldForest) : relocate? f = .ok (Layout.relocate? f) := by
  rw [relocate?, first?_eq, ok_bind, Layout.relocate?]
  cases hr : Relocation.first? 0 0 f.leaves with
  | none => rfl
  | some r =>
    obtain ⟨pre, l, post, hleaves, -, hindex, -⟩ := Relocation.of_first?_eq_some hr
    rw [Nat.zero_add] at hindex
    have hget := Forest.getElem?_leaves_of_append hleaves
    obtain ⟨p, -, hpath, hleaf⟩ := exists_path hget
    have hgrowth : ∀ e ∈ (if l.size.requested = r.width then []
        else [Edit.grow pre.length l.size.requested r.width]),
        (∃ old new, e = .grow pre.length old new) ∨ ∃ w, e = .insertPadding w pre.length := by
      split
      · exact List.forall_mem_nil _
      · exact List.forall_mem_singleton.2 (.inl ⟨_, _, rfl⟩)
    simp only [hindex, hpath, hleaf, hget, ok_bind, Option.bind_eq_bind, Option.bind_some]
    by_cases hpad : r.pad.val = 0
    · have hedits := foldlM_apply_eq hleaves (List.forall_mem_append.2
        ⟨hgrowth, List.forall_mem_nil _⟩)
      rw [if_pos hpad, dif_neg (by omega)]
      simp only [pure_bind, hedits]
      rfl
    · have hwidth := paddingWidth_eq (n := r.pad) (by omega) (by omega)
      have hedits := foldlM_apply_eq hleaves (List.forall_mem_append.2
        ⟨hgrowth, List.forall_mem_singleton.2 (.inr ⟨⟨r.pad, by omega, by omega⟩, rfl⟩)⟩)
      rw [if_neg hpad, dif_pos (by omega), hwidth]
      simp only [pure_bind, ok_bind, hedits]
      rfl

theorem merge?_eq (f : FieldForest) : merge? f = .ok (Layout.merge? f) := by
  rw [merge?, Layout.merge?]
  cases he : firstMerger? 0 0 f.leaves with
  | none => rfl
  | some e =>
    obtain ⟨pre, u, v, post, w, hleaves, rfl, -⟩ := of_firstMerger? he
    have hbound : InBounds f (.mergePadding (0 + pre.length) w) := by
      rw [InBounds, hleaves, List.length_append, List.length_cons, List.length_cons]
      omega
    simp only [apply_eq hbound]
    rfl

/-- A pass that has nothing left to do in the end is not given up. -/
theorem settle_eq {guarded? : FieldForest → Attempt (Option (List LogRecord × FieldForest))}
    {change? : FieldForest → Option (List LogRecord × FieldForest)}
    (heq : ∀ f, guarded? f = .ok (change? f)) {fuel : Nat} {f : FieldForest}
    (hend : change? (Layout.settle change? fuel f).2 = none) :
    settle guarded? fuel f = .ok (Layout.settle change? fuel f) := by
  induction fuel generalizing f with
  | zero =>
    rw [Layout.settle] at hend
    rw [settle, heq, hend]
    rfl
  | succ fuel ih =>
    rw [Layout.settle] at hend ⊢
    rw [settle, heq, ok_bind]
    cases hchange : change? f with
    | none => rfl
    | some step =>
      rw [hchange] at hend
      simp only [ih hend]
      rfl

theorem alignToByte_eq (f : FieldForest) : alignToByte f = .ok (Layout.alignToByte f) := by
  rw [alignToByte, Layout.alignToByte]
  by_cases haligned : f.bits % 8 = 0
  · rw [if_pos haligned, dif_pos haligned]
    rfl
  · have hwidth := paddingWidth_eq (n := 8 - f.bits % 8) (by omega) (by omega)
    simp only [if_neg haligned, dif_neg haligned, hwidth, ok_bind]
    rfl

theorem layout_eq (f : FieldForest) : layout f = .ok (ReportDescriptor.layout f) := by
  have hmoved : settle relocate? f.leaves.length f = .ok (correctOverspans f) :=
    settle_eq relocate?_eq (relocate?_eq_none_iff.2 (unspanned_correctOverspans f))
  have hmerged (g : FieldForest) :
      settle merge? g.leaves.length g = .ok (coalescePadding g) :=
    settle_eq merge?_eq (merge?_coalescePadding g)
  rw [layout, hmoved, ok_bind, alignToByte_eq, ok_bind, hmerged]
  rfl

theorem build_eq (kind : ReportKind) (id : UInt8) (children : FieldForest) :
    build kind id children = .ok (Report.build kind id children) := by
  rw [build, Report.build, layout_eq]
  split
  · rfl
  · split
    · rfl
    · split
      · rfl
      · rfl

end Guarded

end ReportDescriptor
