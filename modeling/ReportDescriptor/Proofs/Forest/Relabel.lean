import ReportDescriptor.Forest.Path

/-!
# Relabelling

New labels for the leaves and the inner nodes of a forest leave its paths as they are, so edits can
be made before or after.
-/

namespace ReportDescriptor

namespace Forest

variable {β β' α α' : Type}

def relabel (m : β → β') (n : α → α') : Forest β α → Forest β' α'
  | nil => nil
  | leaf a rest => leaf (n a) (relabel m n rest)
  | node b children rest => node (m b) (relabel m n children) (relabel m n rest)

variable (m : β → β') (n : α → α')

@[simp] theorem leaves_relabel (f : Forest β α) : (f.relabel m n).leaves = f.leaves.map n := by
  induction f with
  | nil => rfl
  | leaf a rest ih => rw [relabel, leaves_leaf, ih, leaves_leaf, List.map_cons]
  | node b children rest ihc ihr =>
    rw [relabel, leaves_node, ihc, ihr, leaves_node, List.map_append]

@[simp] theorem isEmpty_relabel (f : Forest β α) : (f.relabel m n).isEmpty = f.isEmpty := by
  cases f <;> rfl

@[simp] theorem relabel_append (f g : Forest β α) :
    (f ++ g).relabel m n = f.relabel m n ++ g.relabel m n := by
  induction f with
  | nil => rfl
  | leaf a rest ih => rw [leaf_append, relabel, relabel, ih, leaf_append]
  | node b children rest _ ih => rw [node_append, relabel, relabel, ih, node_append]

@[simp] theorem relabel_prepend (as : List α) (f : Forest β α) :
    (prepend as f).relabel m n = prepend (as.map n) (f.relabel m n) := by
  induction as with
  | nil => rfl
  | cons a as ih => exact congrArg (leaf (n a)) ih

@[simp] theorem leafPathsFrom_relabel (i : Nat) (f : Forest β α) :
    (f.relabel m n).leafPathsFrom i = f.leafPathsFrom i := by
  induction f generalizing i with
  | nil => rfl
  | leaf a rest ih => rw [relabel, leafPathsFrom, ih, leafPathsFrom]
  | node b children rest ihc ihr => rw [relabel, leafPathsFrom, ihc, ihr, leafPathsFrom]

@[simp] theorem leafPaths_relabel (f : Forest β α) : (f.relabel m n).leafPaths = f.leafPaths :=
  leafPathsFrom_relabel m n 0 f

variable {m n} {g : α → List α} {g' : α' → List α'}

theorem relabel_spliceAt (h : ∀ a, (g a).map n = g' (n a)) (f : Forest β α) (p : Path) :
    (f.spliceAt g p).relabel m n = (f.relabel m n).spliceAt g' p := by
  induction f generalizing p with
  | nil => rfl
  | leaf a rest ih =>
    cases p with
    | nil => rfl
    | cons i p =>
      cases i with
      | succ i => exact congrArg (leaf (n a)) (ih (i :: p))
      | zero =>
        cases p with
        | nil => rw [spliceAt, relabel_prepend, h, relabel, spliceAt]
        | cons j p => rfl
  | node b children rest ihc ihr =>
    cases p with
    | nil => rfl
    | cons i p =>
      cases i with
      | succ i => exact congrArg (node (m b) (children.relabel m n)) (ihr (i :: p))
      | zero => exact congrArg (node (m b) · (rest.relabel m n)) (ihc p)

theorem relabel_splice (h : ∀ a, (g a).map n = g' (n a)) (f : Forest β α) (i : Nat) :
    (f.splice g i).relabel m n = (f.relabel m n).splice g' i := by
  rw [splice, splice, leafPaths_relabel]
  split
  · exact relabel_spliceAt h f _
  · rfl

end Forest

end ReportDescriptor
