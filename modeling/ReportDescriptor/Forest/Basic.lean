/-!
# Forests

An ordered list of trees with labels `α` on the leaves and `β` on the inner nodes, as first child
and next sibling. Most of what is said about a forest is said about the list of its leaves, in
depth-first order.
-/

namespace ReportDescriptor

inductive Forest (β α : Type)
  | nil
  | leaf (a : α) (rest : Forest β α)
  | node (b : β) (children rest : Forest β α)
deriving DecidableEq, BEq

namespace Forest

variable {β α : Type}

def leaves : Forest β α → List α
  | nil => []
  | leaf a rest => a :: leaves rest
  | node _ children rest => leaves children ++ leaves rest

/-- The trees of the second forest follow those of the first. -/
def append : Forest β α → Forest β α → Forest β α
  | nil, g => g
  | leaf a rest, g => leaf a (append rest g)
  | node b children rest, g => node b children (append rest g)

instance : Append (Forest β α) := ⟨append⟩

/-- The number of trees. -/
def length : Forest β α → Nat
  | nil => 0
  | leaf _ rest => rest.length + 1
  | node _ _ rest => rest.length + 1

def isEmpty : Forest β α → Bool
  | nil => true
  | _ => false

def join (fs : List (Forest β α)) : Forest β α :=
  fs.foldr append nil

@[simp] theorem leaves_nil : (nil : Forest β α).leaves = [] := rfl

@[simp] theorem leaves_leaf (a : α) (rest : Forest β α) :
    (leaf a rest).leaves = a :: rest.leaves := rfl

@[simp] theorem leaves_node (b : β) (children rest : Forest β α) :
    (node b children rest).leaves = children.leaves ++ rest.leaves := rfl

@[simp] theorem nil_append (g : Forest β α) : nil ++ g = g := rfl

@[simp] theorem leaf_append (a : α) (f g : Forest β α) : leaf a f ++ g = leaf a (f ++ g) := rfl

@[simp] theorem node_append (b : β) (c f g : Forest β α) : node b c f ++ g = node b c (f ++ g) :=
  rfl

@[simp] theorem append_nil (f : Forest β α) : f ++ nil = f := by
  induction f with
  | nil => rfl
  | leaf a rest ih => rw [leaf_append, ih]
  | node b children rest _ ih => rw [node_append, ih]

@[simp] theorem leaves_append (f g : Forest β α) : (f ++ g).leaves = f.leaves ++ g.leaves := by
  induction f with
  | nil => rfl
  | leaf a rest ih => simp [ih]
  | node b children rest _ ih => simp [ih]

end Forest

end ReportDescriptor
