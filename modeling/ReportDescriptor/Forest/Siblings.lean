import ReportDescriptor.Forest.Path

/-!
# Siblings

A forest is also the list of its trees. In such a list each number of a path picks a tree, whose
children are the next list, and the last number is a place in the list that the path ends in. A
leaf is changed, inserted or removed by editing that list alone.
-/

namespace ReportDescriptor

inductive Tree (β α : Type)
  | leaf (a : α)
  | node (b : β) (children : Forest β α)

/-- What is wrong with a path. -/
inductive Misstep
  | emptyPath
  | throughLeaf (path : Path)
  | notALeaf (path : Path)
  | outOfRange (index length : Nat)
deriving DecidableEq

/-- A list of siblings and a place in it. Whatever the list becomes, it can be put back into the
forest that it is from. -/
structure Siblings (β α : Type) where
  trees : List (Tree β α)
  index : Nat
  restore : List (Tree β α) → Forest β α

namespace Forest

variable {β α : Type}

def trees : Forest β α → List (Tree β α)
  | nil => []
  | leaf a rest => .leaf a :: rest.trees
  | node b children rest => .node b children :: rest.trees

def ofTrees : List (Tree β α) → Forest β α
  | [] => nil
  | .leaf a :: ts => leaf a (ofTrees ts)
  | .node b children :: ts => node b children (ofTrees ts)

/-- Follows what is left of a path. -/
def descend (path : Path) (f : Forest β α) : Path → Except Misstep (Siblings β α)
  | [] => .error .emptyPath
  | [i] => .ok ⟨f.trees, i, ofTrees⟩
  | i :: j :: p =>
    match f.trees[i]? with
    | none => .error (.outOfRange i f.trees.length)
    | some (.leaf _) => .error (.throughLeaf path)
    | some (.node b children) => do
      let s ← descend path children (j :: p)
      return { s with restore := fun ts => ofTrees (f.trees.set i (.node b (s.restore ts))) }

def siblingsAt (f : Forest β α) (p : Path) : Except Misstep (Siblings β α) :=
  f.descend p p

def leafAt (f : Forest β α) (p : Path) : Except Misstep α := do
  let s ← f.siblingsAt p
  match s.trees[s.index]? with
  | none => .error (.outOfRange s.index s.trees.length)
  | some (.leaf a) => return a
  | some (.node _ _) => .error (.notALeaf p)

def modifyAt (m : α → α) (f : Forest β α) (p : Path) : Except Misstep (Forest β α) := do
  let a ← f.leafAt p
  let s ← f.siblingsAt p
  return s.restore (s.trees.set s.index (.leaf (m a)))

/-- The new leaf takes the place, and what has been there comes after it. -/
def insertAt (a : α) (f : Forest β α) (p : Path) : Except Misstep (Forest β α) := do
  let s ← f.siblingsAt p
  if s.index ≤ s.trees.length then return s.restore (s.trees.insertIdx s.index (.leaf a))
  else .error (.outOfRange s.index s.trees.length)

def removeAt (f : Forest β α) (p : Path) : Except Misstep (Forest β α) := do
  let s ← f.siblingsAt p
  if s.index < s.trees.length then return s.restore (s.trees.eraseIdx s.index)
  else .error (.outOfRange s.index s.trees.length)

@[simp] theorem ofTrees_trees (f : Forest β α) : ofTrees f.trees = f := by
  induction f with
  | nil => rfl
  | leaf a rest ih => rw [trees, ofTrees, ih]
  | node b children rest _ ih => rw [trees, ofTrees, ih]

@[simp] theorem trees_ofTrees (ts : List (Tree β α)) : (ofTrees ts).trees = ts := by
  induction ts with
  | nil => rfl
  | cons t ts ih => cases t <;> rw [ofTrees, trees, ih]

end Forest

end ReportDescriptor
