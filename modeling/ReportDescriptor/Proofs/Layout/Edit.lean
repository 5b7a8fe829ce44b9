import ReportDescriptor.Layout.Edit
import ReportDescriptor.Proofs.Forest.Splice

/-!
# Edits as edits of the leaves

Seen through the leaves, growing a field, putting padding before it and merging two paddings
change a list at one place. The collections around the fields have no part in it.
-/

namespace ReportDescriptor

namespace Layout.Edit

open Forest

variable {f : FieldForest} {pre post : List Leaf} {l a b : Leaf}

theorem leaves_grow (h : f.leaves = pre ++ l :: post) (old new : BitWidth) :
    (apply f (.grow pre.length old new)).leaves = pre ++ l.withRequested new :: post := by
  rw [apply, leaves_splice_of_append _ h, List.append_assoc, List.singleton_append]

theorem leaves_insertPadding (h : f.leaves = pre ++ l :: post) (w : BitWidth) :
    (apply f (.insertPadding w pre.length)).leaves = pre ++ .padding w :: l :: post := by
  rw [apply, leaves_splice_of_append _ h, List.append_assoc, List.cons_append,
    List.singleton_append]

@[simp] theorem leaves_appendPadding (f : FieldForest) (w : BitWidth) (total : UInt32) :
    (apply f (.appendPadding w total)).leaves = f.leaves ++ [.padding w] := by
  rw [apply, leaves_append, leaves_leaf, leaves_nil]

/-- The path of the second leaf is found before the first is changed, and still leads to it
after that. -/
theorem apply_mergePadding (h : f.leaves = pre ++ a :: b :: post) (combined : BitWidth) :
    apply f (.mergePadding pre.length combined) =
      (f.splice (fun l => [l.withRequested combined]) pre.length).splice (fun _ => [])
        (pre.length + 1) := by
  have hlt : pre.length + 1 < f.leafPaths.length := by
    rw [length_leafPaths, h, List.length_append, List.length_cons, List.length_cons]
    omega
  have hp := List.getElem?_eq_getElem (Nat.lt_of_succ_lt hlt)
  have hq := List.getElem?_eq_getElem hlt
  simp only [apply, splice, hp, hq, leafPaths_spliceAt_single]

theorem leaves_mergePadding (h : f.leaves = pre ++ a :: b :: post) (combined : BitWidth) :
    (apply f (.mergePadding pre.length combined)).leaves =
      pre ++ a.withRequested combined :: post := by
  have hgrown := leaves_splice_of_append (fun l => [l.withRequested combined]) h
  have hmerged := leaves_splice_of_append (fun _ => []) hgrown
  rw [List.length_append, List.length_singleton] at hmerged
  rw [apply_mergePadding h, hmerged, List.append_nil, List.append_assoc, List.singleton_append]

end Layout.Edit

end ReportDescriptor
