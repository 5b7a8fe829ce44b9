import ReportDescriptor.Forest.Path

/-!
# Splices

A leaf is best named by the leaves before it and after it. In these terms a splice puts new leaves
between the two, and a leaf that is replaced by one other leaf leaves all paths as they are.
-/

namespace ReportDescriptor

namespace Forest

variable {β α : Type}

theorem spliceList_of_append (g : α → List α) (pre : List α) (a : α) (post : List α) :
    spliceList g (pre ++ a :: post) pre.length = pre ++ g a ++ post := by
  have h := spliceList_append_right g pre (a :: post) 0
  rw [Nat.add_zero] at h
  rw [h, spliceList, List.append_assoc]

theorem spliceList_eq (g : α → List α) {as : List α} {i : Nat} {a : α} (h : as[i]? = some a) :
    spliceList g as i = as.take i ++ (g a ++ as.drop (i + 1)) := by
  obtain ⟨hi, rfl⟩ := List.getElem?_eq_some_iff.1 h
  have hlength : (as.take i).length = i := by
    rw [List.length_take]
    omega
  have hsplit := spliceList_of_append g (as.take i) as[i] (as.drop (i + 1))
  rwa [hlength, List.getElem_cons_drop, List.take_append_drop, List.append_assoc] at hsplit

theorem getElem?_leaves_of_append {f : Forest β α} {pre post : List α} {a : α}
    (h : f.leaves = pre ++ a :: post) : f.leaves[pre.length]? = some a := by
  rw [h, List.getElem?_append_right (Nat.le_refl _), Nat.sub_self, List.getElem?_cons_zero]

theorem exists_leafPath {f : Forest β α} {i : Nat} {a : α} (h : f.leaves[i]? = some a) :
    ∃ p, f.leafPaths[i]? = some p ∧ f.leafAt? p = some a := by
  have hi : i < f.leafPaths.length := by
    rw [length_leafPaths]
    exact (List.getElem?_eq_some_iff.1 h).1
  have hp := List.getElem?_eq_getElem hi
  exact ⟨_, hp, (leafAt?_of_leafPaths hp).trans h⟩

theorem leaves_splice_of_append (g : α → List α) {f : Forest β α} {pre post : List α} {a : α}
    (h : f.leaves = pre ++ a :: post) :
    (f.splice g pre.length).leaves = pre ++ g a ++ post := by
  have hlt : pre.length < f.leaves.length := by
    rw [h, List.length_append, List.length_cons]
    omega
  rw [leaves_splice g hlt, h, spliceList_of_append]

/-- Replacing one leaf by one leaf leaves every path where it was. -/
theorem leafPaths_spliceAt_single (g : α → α) (f : Forest β α) (p : Path) :
    (f.spliceAt (fun a => [g a]) p).leafPaths = f.leafPaths := by
  induction f generalizing p with
  | nil => rfl
  | leaf a rest ih =>
    cases p with
    | nil => rfl
    | cons i q =>
      cases i with
      | zero => cases q <;> rfl
      | succ i => rw [spliceAt, leafPaths_leaf, leafPaths_leaf, ih]
  | node b children rest ihc ihr =>
    cases p with
    | nil => rfl
    | cons i q =>
      cases i with
      | zero => rw [spliceAt, leafPaths_node, leafPaths_node, ihc]
      | succ i => rw [spliceAt, leafPaths_node, leafPaths_node, ihr]

end Forest

end ReportDescriptor
