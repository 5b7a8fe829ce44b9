import ReportDescriptor.Log

/-!
# Layout

The fields of a report are laid out in three passes that look through collections: fields that
overspan are moved, the report is filled up to whole bytes, and neighbouring paddings are merged.
The first and the last pass make one change after another until none is left to make; since the
first settles one leaf at a time and the last removes one, the number of leaves bounds both. Where
a field starts only counts within a byte, so the sums of bits are numbers of any size; the log
quotes them in words of 32 bits.
-/

namespace ReportDescriptor

namespace Layout

/-- The first relocation of a leaf, and the edits that carry it out. -/
def relocate? (f : FieldForest) : Option (List LogRecord × FieldForest) := do
  let r ← Relocation.first? 0 0 f.leaves
  let l ← f.leaves[r.index]?
  let growth : List Edit :=
    if l.size.requested = r.width then [] else [.grow r.index l.size.requested r.width]
  let padding : List Edit :=
    if h : 1 ≤ r.pad.val then [.insertPadding ⟨r.pad, h, by omega⟩ r.index] else []
  let edits := growth ++ padding
  return (.overspan r :: edits.map .edit, Edit.applyAll f edits)

/-- The padding that two neighbours merge into, at bit `offset`. -/
def merged? (offset : Nat) : Leaf → Leaf → Option BitWidth
  | .padding v, .padding w => (v.add? w).filter fun x => !overspans offset x.bits 1
  | _, _ => none

/-- The first merger in a list that begins at leaf `index` and bit `offset`. -/
def firstMerger? (index offset : Nat) : List Leaf → Option Edit
  | a :: b :: ls =>
    match merged? offset a b with
    | some w => some (.mergePadding index w)
    | none => firstMerger? (index + 1) (offset + a.bits) (b :: ls)
  | _ => none

def merge? (f : FieldForest) : Option (List LogRecord × FieldForest) := do
  let e ← firstMerger? 0 0 f.leaves
  return ([.edit e], e.apply f)

/-- Repeats a change at most `fuel` times, or until it finds nothing to do. -/
def settle (change? : FieldForest → Option (List LogRecord × FieldForest)) :
    Nat → FieldForest → List LogRecord × FieldForest
  | 0, f => ([], f)
  | fuel + 1, f =>
    match change? f with
    | none => ([], f)
    | some (records, g) =>
      let later := settle change? fuel g
      (records ++ later.1, later.2)

def correctOverspans (f : FieldForest) : List LogRecord × FieldForest :=
  settle relocate? f.leaves.length f

/-- Padding at the end, outside of all collections, up to a whole number of bytes. -/
def alignToByte (f : FieldForest) : List LogRecord × FieldForest :=
  let total := f.bits
  if h : total % 8 = 0 then ([], f)
  else
    let width : BitWidth := ⟨8 - total % 8, by omega, by omega⟩
    let e := Edit.appendPadding width (UInt32.ofNat (total + width.bits))
    ([.edit e], e.apply f)

def coalescePadding (f : FieldForest) : List LogRecord × FieldForest :=
  settle merge? f.leaves.length f

end Layout

/-- All three passes, between the records of the report's size. -/
def layout (f : FieldForest) : List LogRecord × FieldForest :=
  let moved := Layout.correctOverspans f
  let aligned := Layout.alignToByte moved.2
  let merged := Layout.coalescePadding aligned.2
  (.bitsBefore (UInt32.ofNat f.bits) :: moved.1 ++ aligned.1 ++ merged.1 ++
    [.bitsAfter (UInt32.ofNat merged.2.bits)], merged.2)

end ReportDescriptor
