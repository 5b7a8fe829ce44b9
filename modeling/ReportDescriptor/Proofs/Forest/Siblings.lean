import Mathlib.Data.List.InsertIdx
import ReportDescriptor.Forest.Siblings
import ReportDescriptor.Proofs.Except
import ReportDescriptor.Proofs.Forest.Filter
import ReportDescriptor.Proofs.Forest.Splice

/-!
# Edits among siblings

The list that a path ends in can be read and put back, and nothing else of the forest is changed by
that: the same list put back restores the forest, and another one is found at the same path. So each
edit among siblings can be undone at its own path. At the path of a leaf the edits are splices, and
thus edits of the list of all leaves.
-/

namespace ReportDescriptor

namespace Forest

variable {β α : Type} {f g : Forest β α} {path p : Path} {s : Siblings β α} {i j : Nat} {a b : α}

/-! ## Reading and putting back -/

theorem descend_eq_ok_iff : f.descend path (i :: j :: p) = .ok s ↔
    ∃ l children t, f.trees[i]? = some (.node l children) ∧
      children.descend path (j :: p) = .ok t ∧
      s = { t with restore := fun ts => ofTrees (f.trees.set i (.node l (t.restore ts))) } := by
  rw [descend]
  constructor
  · intro h
    split at h
    case h_1 => cases h
    case h_2 => cases h
    case h_3 l children htree =>
      obtain ⟨t, ht, hs⟩ := bind_eq_ok_iff.1 h
      exact ⟨l, children, t, htree, ht, (Except.ok.inj hs).symm⟩
  · rintro ⟨l, children, t, htree, ht, rfl⟩
    simp only [htree, ht, ok_bind]
    rfl

/-- The list as it was found, put back, gives the forest that it was found in. -/
theorem restore_trees (h : f.descend path p = .ok s) : s.restore s.trees = f := by
  induction p generalizing f s with
  | nil => cases h
  | cons i p ih =>
    cases p with
    | nil =>
      obtain rfl := Except.ok.inj h
      exact ofTrees_trees f
    | cons j p =>
      obtain ⟨l, children, t, htree, ht, rfl⟩ := descend_eq_ok_iff.1 h
      obtain ⟨hi, hget⟩ := List.getElem?_eq_some_iff.1 htree
      simp only [ih ht, ← hget, List.set_getElem_self, ofTrees_trees]

/-- What has been put back is found at the same path, and so is what surrounds it. -/
theorem descend_restore (h : f.descend path p = .ok s) (ts : List (Tree β α)) :
    (s.restore ts).descend path p = .ok { s with trees := ts } := by
  induction p generalizing f s with
  | nil => cases h
  | cons i p ih =>
    cases p with
    | nil =>
      obtain rfl := Except.ok.inj h
      rw [descend, trees_ofTrees]
    | cons j p =>
      obtain ⟨l, children, t, htree, ht, rfl⟩ := descend_eq_ok_iff.1 h
      obtain ⟨hi, -⟩ := List.getElem?_eq_some_iff.1 htree
      refine descend_eq_ok_iff.2 ⟨l, t.restore ts, _, ?_, ih ht, ?_⟩
      · rw [trees_ofTrees, List.getElem?_set_self hi]
      · simp only [trees_ofTrees, List.set_set]

/-! ## Edits and how they are undone -/

theorem leafAt_eq_ok_iff : f.leafAt p = .ok a ↔
    ∃ s, f.siblingsAt p = .ok s ∧ s.trees[s.index]? = some (.leaf a) := by
  rw [leafAt, bind_eq_ok_iff]
  refine exists_congr fun s => and_congr_right fun _ => ?_
  split
  case h_1 hget => simp [hget]
  case h_2 b hget => simp [hget, pure_eq_ok_iff]
  case h_3 l children hget => simp [hget]

theorem modifyAt_eq_ok_iff {m : α → α} : f.modifyAt m p = .ok g ↔
    ∃ a, f.leafAt p = .ok a ∧ ∃ s, f.siblingsAt p = .ok s ∧
      s.restore (s.trees.set s.index (.leaf (m a))) = g := by
  simp only [modifyAt, bind_eq_ok_iff, pure_eq_ok_iff]

theorem insertAt_eq_ok_iff : f.insertAt a p = .ok g ↔
    ∃ s, f.siblingsAt p = .ok s ∧ s.index ≤ s.trees.length ∧
      s.restore (s.trees.insertIdx s.index (.leaf a)) = g := by
  rw [insertAt, bind_eq_ok_iff]
  refine exists_congr fun s => and_congr_right fun _ => ?_
  split
  case isTrue h => simp [h, pure_eq_ok_iff]
  case isFalse h => simp [h]

theorem removeAt_eq_ok_iff : f.removeAt p = .ok g ↔
    ∃ s, f.siblingsAt p = .ok s ∧ s.index < s.trees.length ∧
      s.restore (s.trees.eraseIdx s.index) = g := by
  rw [removeAt, bind_eq_ok_iff]
  refine exists_congr fun s => and_congr_right fun _ => ?_
  split
  case isTrue h => simp [h, pure_eq_ok_iff]
  case isFalse h => simp [h]

theorem getElem?_of_leafAt (ha : f.leafAt p = .ok a) (hs : f.siblingsAt p = .ok s) :
    s.trees[s.index]? = some (.leaf a) := by
  obtain ⟨s', hs', hget⟩ := leafAt_eq_ok_iff.1 ha
  obtain rfl := Except.ok.inj (hs.symm.trans hs')
  exact hget

/-- The path still leads to the leaf that has been changed, where it can be changed back. -/
theorem modifyAt_modifyAt {m : α → α} (ha : f.leafAt p = .ok a) (h : f.modifyAt m p = .ok g) :
    g.modifyAt (fun _ => a) p = .ok f := by
  obtain ⟨a', -, s, hs, rfl⟩ := modifyAt_eq_ok_iff.1 h
  obtain ⟨hlt, htree⟩ := List.getElem?_eq_some_iff.1 (getElem?_of_leafAt ha hs)
  have hrestored := descend_restore hs (s.trees.set s.index (.leaf (m a')))
  refine modifyAt_eq_ok_iff.2
    ⟨m a', leafAt_eq_ok_iff.2 ⟨_, hrestored, List.getElem?_set_self hlt⟩, _, hrestored, ?_⟩
  simp only [List.set_set, ← htree, List.set_getElem_self, restore_trees hs]

theorem removeAt_insertAt (h : f.insertAt b p = .ok g) : g.removeAt p = .ok f := by
  obtain ⟨s, hs, hle, rfl⟩ := insertAt_eq_ok_iff.1 h
  refine removeAt_eq_ok_iff.2 ⟨_, descend_restore hs _, ?_, ?_⟩
  · simp only [List.length_insertIdx_of_le_length hle]
    omega
  · simp only [List.eraseIdx_insertIdx_self, restore_trees hs]

theorem insertAt_removeAt (ha : f.leafAt p = .ok a) (h : f.removeAt p = .ok g) :
    g.insertAt a p = .ok f := by
  obtain ⟨s, hs, hlt, rfl⟩ := removeAt_eq_ok_iff.1 h
  obtain ⟨_, htree⟩ := List.getElem?_eq_some_iff.1 (getElem?_of_leafAt ha hs)
  refine insertAt_eq_ok_iff.2 ⟨_, descend_restore hs _, ?_, ?_⟩
  · simp only [List.length_eraseIdx_of_lt hlt]
    omega
  · simp only [← htree, List.insertIdx_eraseIdx_getElem hlt, restore_trees hs]

/-! ## Edits as splices -/

theorem ofTrees_map_leaf_append (as : List α) (ts : List (Tree β α)) :
    ofTrees (as.map .leaf ++ ts) = prepend as (ofTrees ts) := by
  induction as with
  | nil => rfl
  | cons a as ih => exact congrArg (leaf a) ih

theorem leafAt?_nil (f : Forest β α) : f.leafAt? [] = none := by
  cases f <;> rfl

/-- The first number of a path picks the leaf that it leads to, or a node above it. -/
theorem cases_of_leafAt? (h : f.leafAt? (i :: p) = some a) :
    p = [] ∧ f.trees[i]? = some (.leaf a) ∨
      ∃ l children, f.trees[i]? = some (.node l children) ∧ children.leafAt? p = some a := by
  induction f generalizing i with
  | nil => cases h
  | leaf c rest ih =>
    cases i with
    | zero =>
      cases p with
      | nil => exact .inl ⟨rfl, congrArg (some ∘ Tree.leaf) (Option.some.inj h)⟩
      | cons j p => cases h
    | succ i => exact ih h
  | node l children rest _ ih =>
    cases i with
    | zero => exact .inr ⟨l, children, rfl, h⟩
    | succ i => exact ih h

theorem spliceAt_of_leaf (out : α → List α) (h : f.trees[i]? = some (.leaf a)) :
    f.spliceAt out [i] =
      ofTrees (f.trees.take i ++ ((out a).map .leaf ++ f.trees.drop (i + 1))) := by
  induction f generalizing i with
  | nil => cases h
  | leaf c rest ih =>
    cases i with
    | zero =>
      cases h
      change prepend (out a) rest = ofTrees ((out a).map .leaf ++ rest.trees)
      rw [ofTrees_map_leaf_append, ofTrees_trees]
    | succ i => exact congrArg (leaf c) (ih h)
  | node l children rest _ ih =>
    cases i with
    | zero => cases h
    | succ i => exact congrArg (node l children) (ih h)

theorem spliceAt_of_node {l : β} {children : Forest β α} (out : α → List α)
    (h : f.trees[i]? = some (.node l children)) :
    f.spliceAt out (i :: j :: p) =
      ofTrees (f.trees.set i (.node l (children.spliceAt out (j :: p)))) := by
  induction f generalizing i with
  | nil => cases h
  | leaf c rest ih =>
    cases i with
    | zero => cases h
    | succ i => exact congrArg (leaf c) (ih h)
  | node l' children' rest _ ih =>
    cases i with
    | zero =>
      cases h
      exact congrArg (node l _) (ofTrees_trees rest).symm
    | succ i => exact congrArg (node l' children') (ih h)

/-- The leaf that a path leads to stands in a list of siblings, and a splice of the forest is a
splice of that list. -/
theorem exists_descend (h : f.leafAt? p = some a) :
    ∃ s, f.descend path p = .ok s ∧ s.trees[s.index]? = some (.leaf a) ∧
      ∀ out : α → List α, f.spliceAt out p = s.restore
        (s.trees.take s.index ++ ((out a).map .leaf ++ s.trees.drop (s.index + 1))) := by
  induction p generalizing f with
  | nil => cases (leafAt?_nil f).symm.trans h
  | cons i p ih =>
    -- A path of one number ends among the roots, a longer one among the children of a root.
    rcases cases_of_leafAt? h with ⟨rfl, htree⟩ | ⟨l, children, htree, hleaf⟩
    · exact ⟨⟨f.trees, i, ofTrees⟩, rfl, htree, fun out => spliceAt_of_leaf out htree⟩
    · obtain ⟨s, hs, hget, hsplice⟩ := ih hleaf
      cases p with
      | nil => cases hs
      | cons j p =>
        refine ⟨_, descend_eq_ok_iff.2 ⟨l, children, s, htree, hs, rfl⟩, hget, fun out => ?_⟩
        rw [spliceAt_of_node out htree, hsplice]

theorem insertIdx_eq {γ : Type} {cs : List γ} {c d : γ} (h : cs[i]? = some c) :
    cs.insertIdx i d = cs.take i ++ (d :: c :: cs.drop (i + 1)) := by
  induction cs generalizing i with
  | nil => cases h
  | cons e cs ih =>
    cases i with
    | zero =>
      cases h
      rfl
    | succ i => exact congrArg (e :: ·) (ih h)

theorem leafAt_eq (h : f.leafAt? p = some a) : f.leafAt p = .ok a := by
  obtain ⟨s, hs, hget, -⟩ := exists_descend h
  exact leafAt_eq_ok_iff.2 ⟨s, hs, hget⟩

theorem modifyAt_eq (h : f.leafAt? p = some a) (m : α → α) :
    f.modifyAt m p = .ok (f.spliceAt (fun a => [m a]) p) := by
  obtain ⟨s, hs, hget, hsplice⟩ := exists_descend h
  obtain ⟨hlt, -⟩ := List.getElem?_eq_some_iff.1 hget
  refine modifyAt_eq_ok_iff.2 ⟨a, leafAt_eq h, s, hs, ?_⟩
  rw [hsplice, List.set_eq_take_cons_drop _ hlt]
  rfl

theorem insertAt_eq (h : f.leafAt? p = some a) (b : α) :
    f.insertAt b p = .ok (f.spliceAt (fun a => [b, a]) p) := by
  obtain ⟨s, hs, hget, hsplice⟩ := exists_descend h
  obtain ⟨hlt, -⟩ := List.getElem?_eq_some_iff.1 hget
  refine insertAt_eq_ok_iff.2 ⟨s, hs, Nat.le_of_lt hlt, ?_⟩
  rw [hsplice, insertIdx_eq hget]
  rfl

theorem removeAt_eq (h : f.leafAt? p = some a) :
    f.removeAt p = .ok (f.spliceAt (fun _ => []) p) := by
  obtain ⟨s, hs, hget, hsplice⟩ := exists_descend h
  obtain ⟨hlt, -⟩ := List.getElem?_eq_some_iff.1 hget
  refine removeAt_eq_ok_iff.2 ⟨s, hs, hlt, ?_⟩
  rw [hsplice, List.eraseIdx_eq_take_drop_succ]
  rfl

/-! ## The paths of leaves -/

/-- These leaves, under the inner nodes that there have been before. -/
structure EditedTo (f : Forest β α) (as : List α) (g : Forest β α) : Prop where
  leaves_eq : g.leaves = as
  skeleton_eq : g.skeleton = f.skeleton

/-- A path that leads to leaf number `i`, which is `a`. There each edit among siblings is the same
edit of the list of all leaves, and keeps all inner nodes. Undone at the same path, it has changed
nothing. -/
structure LeadsTo (f : Forest β α) (p : Path) (i : Nat) (a : α) : Prop where
  siblings : ∃ s, f.siblingsAt p = .ok s ∧ s.trees[s.index]? = some (.leaf a)
  leaf : f.leaves[i]? = some a ∧ f.leafAt p = .ok a
  modify : ∀ m, ∃ g, f.modifyAt m p = .ok g ∧ EditedTo f (f.leaves.set i (m a)) g ∧
    g.leafPaths = f.leafPaths ∧ g.modifyAt (fun _ => a) p = .ok f
  insert : ∀ b, ∃ g, f.insertAt b p = .ok g ∧ EditedTo f (f.leaves.insertIdx i b) g ∧
    g.removeAt p = .ok f
  remove : ∃ g, f.removeAt p = .ok g ∧ EditedTo f (f.leaves.eraseIdx i) g ∧ g.insertAt a p = .ok f

theorem editedTo_spliceAt (out : α → List α) (hp : f.leafPaths[i]? = some p)
    (ha : f.leaves[i]? = some a) :
    EditedTo f (f.leaves.take i ++ (out a ++ f.leaves.drop (i + 1))) (f.spliceAt out p) :=
  ⟨by rw [leaves_spliceAt out hp, spliceList_eq out ha], skeleton_spliceAt out f p⟩

theorem leadsTo_of_leafPaths (hp : f.leafPaths[i]? = some p) (ha : f.leaves[i]? = some a) :
    f.LeadsTo p i a := by
  have hleaf : f.leafAt? p = some a := (leafAt?_of_leafPaths hp).trans ha
  obtain ⟨s, hs, hget, -⟩ := exists_descend hleaf
  obtain ⟨hi, -⟩ := List.getElem?_eq_some_iff.1 ha
  refine ⟨⟨s, hs, hget⟩, ⟨ha, leafAt_eq hleaf⟩, fun m => ?_, fun b => ?_, ?_⟩
  · have hmodify := modifyAt_eq hleaf m
    refine ⟨_, hmodify, ?_, leafPaths_spliceAt_single m f p,
      modifyAt_modifyAt (leafAt_eq hleaf) hmodify⟩
    rw [List.set_eq_take_cons_drop _ hi]
    exact editedTo_spliceAt (fun a => [m a]) hp ha
  · have hinsert := insertAt_eq hleaf b
    refine ⟨_, hinsert, ?_, removeAt_insertAt hinsert⟩
    rw [insertIdx_eq ha]
    exact editedTo_spliceAt (fun a => [b, a]) hp ha
  · have hremove := removeAt_eq hleaf
    refine ⟨_, hremove, ?_, insertAt_removeAt (leafAt_eq hleaf) hremove⟩
    rw [List.eraseIdx_eq_take_drop_succ]
    exact editedTo_spliceAt (fun _ => []) hp ha

end Forest

end ReportDescriptor
