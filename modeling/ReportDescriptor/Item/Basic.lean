import ReportDescriptor.Item.Kind

/-!
# Short items

The words a descriptor is made of: a kind and at most one number.
-/

namespace ReportDescriptor

inductive ItemValue
  | none
  | unsigned (v : UInt32)
  | signed (v : Int32)
deriving DecidableEq

structure ShortItem where
  kind : ItemKind
  value : ItemValue
deriving DecidableEq

namespace ShortItem

def empty (k : ItemKind) : ShortItem := ⟨k, .none⟩

def unsigned (k : ItemKind) (v : UInt32) : ShortItem := ⟨k, .unsigned v⟩

/-- An unsigned item with a natural number, which has to be below `2 ^ 32`. -/
def ofNat (k : ItemKind) (n : Nat) : ShortItem := unsigned k (UInt32.ofNat n)

def signed (k : ItemKind) (v : Int32) : ShortItem := ⟨k, .signed v⟩

/-- The main item of a field in a report of the given kind. -/
def main (r : ReportKind) (v : UInt32) : ShortItem := unsigned (.ofReport r) v

/-- An item carries the sort of number that its kind calls for. -/
def WellFormed (i : ShortItem) : Prop :=
  match i.value with
  | .none => i.kind.hasData = false
  | .unsigned _ => i.kind.hasData = true ∧ i.kind.isSigned = false
  | .signed _ => i.kind.isSigned = true

instance (i : ShortItem) : Decidable i.WellFormed := by
  unfold WellFormed
  split <;> infer_instance

end ShortItem

end ReportDescriptor
