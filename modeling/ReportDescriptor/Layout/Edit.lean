import ReportDescriptor.Collection
import ReportDescriptor.Forest.Path
import ReportDescriptor.Layout.Overspan

/-!
# Edits

The four ways in which laying out a report changes its fields. Indices count the leaves at the
moment of the edit.
-/

namespace ReportDescriptor

namespace Layout

inductive Edit
  | grow (index : Nat) (old new : BitWidth)
  | insertPadding (width : BitWidth) (index : Nat)
  /-- The total counts the bits of the report with the padding, in a word. -/
  | appendPadding (width : BitWidth) (total : UInt32)
  /-- The leaf at `index` takes in the one after it. -/
  | mergePadding (index : Nat) (combined : BitWidth)
deriving DecidableEq

namespace Edit

/-- Padding goes to the collection of the leaf that it is put before, and to no collection at
the end. Both leaves of a merger are found before either is changed. -/
def apply (f : FieldForest) : Edit → FieldForest
  | grow i _ new => f.splice (fun l => [l.withRequested new]) i
  | insertPadding w i => f.splice (fun l => [.padding w, l]) i
  | appendPadding w _ => f ++ .leaf (.padding w) .nil
  | mergePadding i combined =>
    match f.leafPaths[i]?, f.leafPaths[i + 1]? with
    | some p, some q =>
      (f.spliceAt (fun l => [l.withRequested combined]) p).spliceAt (fun _ => []) q
    | _, _ => f

def applyAll (f : FieldForest) (es : List Edit) : FieldForest :=
  es.foldl apply f

@[simp] theorem applyAll_nil (f : FieldForest) : applyAll f [] = f := rfl

@[simp] theorem applyAll_cons (f : FieldForest) (e : Edit) (es : List Edit) :
    applyAll f (e :: es) = applyAll (apply f e) es := rfl

end Edit

end Layout

end ReportDescriptor
