import Mathlib.Data.List.Forall2
import ReportDescriptor.Proofs.Forest.Scan

/-!
# Forests without some of their leaves

Leaves can be left out of a forest without touching its inner nodes. What is left over tells which
edits keep to leaves of the sort that is left out: the others stay where they are, under the same
nodes, and at most become others that they are related to.
-/

namespace ReportDescriptor

namespace Forest

variable {β α γ : Type}

/-- The same inner nodes at the same places, and related leaves. -/
inductive Forall₂ (R : α → γ → Prop) : Forest β α → Forest β γ → Prop
  | nil : Forall₂ R nil nil
  | leaf {a : α} {c : γ} {f : Forest β α} {g : Forest β γ} (head : R a c)
      (rest : Forall₂ R f g) : Forall₂ R (leaf a f) (leaf c g)
  | node {b : β} {f f' : Forest β α} {g g' : Forest β γ} (children : Forall₂ R f g)
      (rest : Forall₂ R f' g') : Forall₂ R (node b f f') (node b g g')

/-- The inner nodes in depth-first order, each with its children. -/
def nodes : Forest β α → List (β × Forest β α)
  | nil => []
  | leaf _ rest => rest.nodes
  | node b children rest => (b, children) :: (children.nodes ++ rest.nodes)

/-- The forest without the leaves that are not to be kept. -/
def filter (keep : α → Bool) : Forest β α → Forest β α
  | nil => nil
  | leaf a rest => prepend ([a].filter keep) (rest.filter keep)
  | node b children rest => node b (children.filter keep) (rest.filter keep)

/-- The inner nodes alone. -/
def skeleton (f : Forest β α) : Forest β α :=
  f.filter fun _ => false

section Forall₂

variable {R : α → α → Prop} {f g h : Forest β α}

theorem Forall₂.eq (h : Forall₂ Eq f g) : f = g := by
  induction h with
  | nil => rfl
  | leaf head _ ih => rw [head, ih]
  | node _ _ ihc ihr => rw [ihc, ihr]

theorem Forall₂.refl (hR : ∀ a, R a a) (f : Forest β α) : Forall₂ R f f := by
  induction f with
  | nil => exact .nil
  | leaf a rest ih => exact .leaf (hR a) ih
  | node b children rest ihc ihr => exact .node ihc ihr

theorem Forall₂.trans (hR : ∀ a b c, R a b → R b c → R a c) (hfg : Forall₂ R f g)
    (hgh : Forall₂ R g h) : Forall₂ R f h := by
  induction hfg generalizing h with
  | nil => exact hgh
  | leaf head rest ih =>
    cases hgh with
    | leaf head' rest' => exact .leaf (hR _ _ _ head head') (ih rest')
  | node children rest ihc ihr =>
    cases hgh with
    | node children' rest' => exact .node (ihc children') (ihr rest')

theorem Forall₂.prepend {as bs : List α} (has : List.Forall₂ R as bs) (h : Forall₂ R f g) :
    Forall₂ R (prepend as f) (prepend bs g) := by
  induction has with
  | nil => exact h
  | cons hab _ ih => exact .leaf hab ih

theorem Forall₂.leaves (h : Forall₂ R f g) : List.Forall₂ R f.leaves g.leaves := by
  induction h with
  | nil => exact .nil
  | leaf head rest ih => exact .cons head ih
  | node children rest ihc ihr => exact List.rel_append ihc ihr

theorem Forall₂.forall_nodes_leaves_ne_nil (h : Forall₂ R f g)
    (hf : ∀ n ∈ f.nodes, n.2.leaves ≠ []) : ∀ n ∈ g.nodes, n.2.leaves ≠ [] := by
  induction h with
  | nil => exact hf
  | leaf head rest ih => exact ih hf
  | node children rest ihc ihr =>
    simp only [nodes, List.forall_mem_cons, List.forall_mem_append] at hf ⊢
    refine ⟨?_, ihc hf.2.1, ihr hf.2.2⟩
    have hlength := children.leaves.length_eq
    have hpos := List.length_pos_iff.2 hf.1
    exact List.length_pos_iff.1 (hlength ▸ hpos)

end Forall₂

section filter

variable {keep : α → Bool} {R : α → α → Prop}

theorem leaves_filter (keep : α → Bool) (f : Forest β α) :
    (f.filter keep).leaves = f.leaves.filter keep := by
  induction f with
  | nil => rfl
  | leaf a rest ih =>
    rw [filter, leaves_prepend, ih, leaves_leaf, ← List.filter_append, List.singleton_append]
  | node b children rest ihc ihr =>
    rw [filter, leaves_node, ihc, ihr, leaves_node, List.filter_append]

theorem nodes_prepend (as : List α) (f : Forest β α) : (prepend as f).nodes = f.nodes := by
  induction as with
  | nil => rfl
  | cons a as ih => exact ih

theorem nodes_filter (keep : α → Bool) (f : Forest β α) :
    (f.filter keep).nodes = f.nodes.map fun n => (n.1, n.2.filter keep) := by
  induction f with
  | nil => rfl
  | leaf a rest ih => rw [filter, nodes_prepend, ih, nodes]
  | node b children rest ihc ihr =>
    rw [filter, nodes, ihc, ihr, nodes, List.map_cons, List.map_append]

theorem filter_append (keep : α → Bool) (f g : Forest β α) :
    (f ++ g).filter keep = f.filter keep ++ g.filter keep := by
  induction f with
  | nil => rfl
  | leaf a rest ih => rw [leaf_append, filter, ih, filter, prepend_append_forest]
  | node b children rest _ ih => rw [node_append, filter, ih, filter, node_append]

theorem filter_prepend (keep : α → Bool) (as : List α) (f : Forest β α) :
    (prepend as f).filter keep = prepend (as.filter keep) (f.filter keep) := by
  induction as with
  | nil => rfl
  | cons a as ih =>
    rw [prepend_cons, filter, ih, ← prepend_append, ← List.filter_append, List.singleton_append]

/-- An edit of one leaf, seen without the leaves that are not kept. -/
theorem forall₂_filter_spliceAt (hR : ∀ a, R a a) {g : α → List α} {f : Forest β α} {p : Path}
    (h : ∀ a, f.leafAt? p = some a → List.Forall₂ R ([a].filter keep) ((g a).filter keep)) :
    Forall₂ R (f.filter keep) ((f.spliceAt g p).filter keep) := by
  -- A path that leads to no leaf changes nothing.
  have hrefl := Forall₂.refl (β := β) hR
  induction f generalizing p with
  | nil => exact .nil
  | leaf a rest ih =>
    cases p with
    | nil => exact hrefl _
    | cons i p =>
      cases i with
      | zero =>
        cases p with
        | nil =>
          rw [spliceAt, filter_prepend]
          exact (hrefl _).prepend (h a rfl)
        | cons j p => exact hrefl _
      | succ i => exact (ih h).prepend (List.forall₂_same.2 fun a _ => hR a)
  | node b children rest ihc ihr =>
    cases p with
    | nil => exact hrefl _
    | cons i p =>
      cases i with
      | zero => exact .node (ihc h) (hrefl _)
      | succ i => exact .node (hrefl _) (ihr h)

theorem forall₂_filter_splice (hR : ∀ a, R a a) {g : α → List α} {f : Forest β α} {i : Nat}
    (h : ∀ a, f.leaves[i]? = some a → List.Forall₂ R ([a].filter keep) ((g a).filter keep)) :
    Forall₂ R (f.filter keep) ((f.splice g i).filter keep) := by
  rw [splice]
  cases hp : f.leafPaths[i]? with
  | none => exact .refl hR _
  | some p =>
    exact forall₂_filter_spliceAt hR fun a ha => h a ((leafAt?_of_leafPaths hp).symm.trans ha)

/-- Edits of leaves keep all inner nodes, and their order and nesting. -/
@[simp] theorem skeleton_spliceAt (g : α → List α) (f : Forest β α) (p : Path) :
    (f.spliceAt g p).skeleton = f.skeleton := by
  refine (Forall₂.eq (forall₂_filter_spliceAt (fun _ => rfl) fun a _ => ?_)).symm
  rw [List.filter_false, List.filter_false]
  exact .nil

end filter

end Forest

end ReportDescriptor
