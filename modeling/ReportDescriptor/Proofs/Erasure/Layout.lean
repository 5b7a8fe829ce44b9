import ReportDescriptor.Proofs.Erasure.Basic

/-!
# Layout does not see kinds

Every search of the layout goes by sizes and counts, and every edit takes leaves as they are, so
the kinds can be erased before a report is laid out or after: with the same records either way.
-/

namespace ReportDescriptor

namespace Layout

/-- The outcome of a pass, with the kinds erased. -/
def bareOutcome (x : List LogRecord × FieldForest) : List LogRecord × FieldForest :=
  (x.1, x.2.bare)

theorem first?_map_bare (index offset : Nat) (ls : List Leaf) :
    Relocation.first? index offset (ls.map Leaf.bare) = Relocation.first? index offset ls := by
  induction ls generalizing index offset with
  | nil => rfl
  | cons l ls ih =>
    rw [List.map_cons, Relocation.first?, Relocation.first?, l.size_bare, l.count_bare,
      l.bits_bare, ih]

theorem merged?_bare (offset : Nat) (l m : Leaf) :
    merged? offset l.bare m.bare = merged? offset l m := by
  cases l <;> cases m <;> rfl

theorem firstMerger?_map_bare (index offset : Nat) (ls : List Leaf) :
    firstMerger? index offset (ls.map Leaf.bare) = firstMerger? index offset ls := by
  induction ls generalizing index offset with
  | nil => rfl
  | cons a ls ih =>
    cases ls with
    | nil => rfl
    | cons b ls =>
      rw [List.map_cons] at ih
      rw [List.map_cons, List.map_cons, firstMerger?, firstMerger?, merged?_bare, a.bits_bare, ih]

theorem bare_splice {g g' : Leaf → List Leaf} (h : ∀ l, (g l).map Leaf.bare = g' l.bare)
    (f : FieldForest) (i : Nat) : FieldForest.bare (f.splice g i) = f.bare.splice g' i :=
  Forest.relabel_splice h f i

theorem bare_spliceAt {g g' : Leaf → List Leaf} (h : ∀ l, (g l).map Leaf.bare = g' l.bare)
    (f : FieldForest) (p : Path) : FieldForest.bare (f.spliceAt g p) = f.bare.spliceAt g' p :=
  Forest.relabel_spliceAt h f p

theorem map_bare_withRequested (w : BitWidth) (l : Leaf) :
    [l.withRequested w].map Leaf.bare = [l.bare.withRequested w] := by
  rw [List.map_singleton, l.bare_withRequested]

namespace Edit

theorem bare_apply (f : FieldForest) (e : Edit) : (e.apply f).bare = e.apply f.bare := by
  cases e with
  | grow i old new => exact bare_splice (map_bare_withRequested new) f i
  | insertPadding w i => exact bare_splice (fun _ => rfl) f i
  | appendPadding w total => exact Forest.relabel_append _ _ f _
  | mergePadding i combined =>
    rw [apply, apply, f.leafPaths_bare]
    split
    · rename_i p q _ _
      have hgrown : FieldForest.bare (f.spliceAt (fun l => [l.withRequested combined]) p) =
          f.bare.spliceAt (fun l => [l.withRequested combined]) p :=
        bare_spliceAt (map_bare_withRequested combined) f p
      rw [← hgrown]
      exact bare_spliceAt (fun _ => rfl) _ q
    · rfl

theorem bare_applyAll (f : FieldForest) (es : List Edit) :
    FieldForest.bare (applyAll f es) = applyAll f.bare es := by
  induction es generalizing f with
  | nil => rfl
  | cons e es ih => rw [applyAll_cons, ih, bare_apply, applyAll_cons]

end Edit

theorem relocate?_bare (f : FieldForest) : relocate? f.bare = (relocate? f).map bareOutcome := by
  rw [relocate?, relocate?, f.leaves_bare, first?_map_bare]
  cases Relocation.first? 0 0 f.leaves with
  | none => rfl
  | some r =>
    simp only [Option.bind_eq_bind, Option.bind_some, List.getElem?_map]
    cases f.leaves[r.index]? with
    | none => rfl
    | some l =>
      simp only [Option.map_some, Option.bind_some, l.size_bare, Option.pure_def, bareOutcome,
        Edit.bare_applyAll]

theorem merge?_bare (f : FieldForest) : merge? f.bare = (merge? f).map bareOutcome := by
  rw [merge?, merge?, f.leaves_bare, firstMerger?_map_bare]
  cases firstMerger? 0 0 f.leaves with
  | none => rfl
  | some e =>
    simp only [Option.bind_eq_bind, Option.bind_some, Option.pure_def, Option.map_some,
      bareOutcome, Edit.bare_apply]

theorem settle_bare {change? : FieldForest → Option (List LogRecord × FieldForest)}
    (h : ∀ f, change? f.bare = (change? f).map bareOutcome) (fuel : Nat) (f : FieldForest) :
    settle change? fuel f.bare = bareOutcome (settle change? fuel f) := by
  induction fuel generalizing f with
  | zero => rfl
  | succ fuel ih =>
    rw [settle, settle, h]
    cases change? f with
    | none => rfl
    | some x => simp only [Option.map_some, bareOutcome, ih]

theorem alignToByte_bare (f : FieldForest) : alignToByte f.bare = bareOutcome (alignToByte f) := by
  simp only [alignToByte, f.bits_bare]
  split
  · rfl
  · simp only [bareOutcome, Edit.bare_apply]

theorem layout_bare (f : FieldForest) : layout f.bare = bareOutcome (layout f) := by
  simp only [layout, correctOverspans, coalescePadding, f.leaves_bare, List.length_map,
    settle_bare relocate?_bare, bareOutcome, alignToByte_bare, FieldForest.leaves_bare,
    settle_bare merge?_bare, FieldForest.bits_bare]

end Layout

end ReportDescriptor
