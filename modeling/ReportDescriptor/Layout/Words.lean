import ReportDescriptor.Report

/-!
# Layout in words

A report is laid out with numbers of any size. Here the same is done in words of 32 bits: every sum
and every product has to be a word again, or the report is not laid out at all.
-/

namespace ReportDescriptor

theorem Relocation.pad_le_max (r : Relocation) : r.pad.val ≤ 32 :=
  Nat.le_trans (Nat.le_of_lt r.pad.isLt) (by decide)

namespace Words

/-- A sum or a product that is too large. -/
inductive Overflow
  | sum (a b : UInt32)
  | product (a b : UInt32)
deriving DecidableEq

abbrev Checked := Except Overflow

def add (a b : UInt32) : Checked UInt32 :=
  if a.toNat + b.toNat < UInt32.size then .ok (a + b) else .error (.sum a b)

def mul (a b : UInt32) : Checked UInt32 :=
  if a.toNat * b.toNat < UInt32.size then .ok (a * b) else .error (.product a b)

def count : Leaf → Checked UInt32
  | .single v => .ok (UInt32.ofNat v.count.value)
  | .range v => add (v.usages.last.id.toUInt32 - v.usages.first.id.toUInt32) 1
  | .array s => .ok (UInt32.ofNat s.count.value)
  | .padding _ => .ok 1

def bits (l : Leaf) : Checked UInt32 := do
  mul (← count l) (UInt32.ofNat l.size.adjusted)

def rawBits (l : Leaf) : Checked UInt32 := do
  mul (← count l) (UInt32.ofNat l.size.requested.bits)

/-- Trees are summed up from left to right, and each collection by itself. -/
def sum (measure : Leaf → Checked UInt32) : UInt32 → FieldForest → Checked UInt32
  | acc, .nil => .ok acc
  | acc, .leaf l rest => do sum measure (← add acc (← measure l)) rest
  | acc, .node _ children rest => do sum measure (← add acc (← sum measure 0 children)) rest

def leastPad? (offset : UInt32) (s : FieldSize) (count : UInt32) (w : BitWidth) :
    Checked (Option (Fin 8)) :=
  (List.finRange 8).findM? fun pad => do
    let start ← add offset (UInt32.ofNat pad)
    return !overspans start.toNat { s with requested := w }.adjusted count.toNat

def fitting? (offset : UInt32) (s : FieldSize) (count : UInt32) :
    Checked (Option (BitWidth × Fin 8)) :=
  (Relocation.widths s).findSomeM? fun w => do
    return (← leastPad? offset s count w).map (w, ·)

def first? (index : Nat) (offset : UInt32) : List Leaf → Checked (Option Relocation)
  | [] => .ok none
  | l :: ls => do
    let n ← count l
    if overspans offset.toNat l.size.adjusted n.toNat then
      return (← fitting? offset l.size n).map fun (w, pad) => ⟨index, offset, w, pad⟩
    else first? (index + 1) (← add offset (← bits l)) ls

/-- The edits that a relocation calls for. -/
def carryOut (f : FieldForest) (r : Relocation) : Option (List LogRecord × FieldForest) := do
  let l ← f.leaves[r.index]?
  let growth : List Layout.Edit :=
    if l.size.requested = r.width then [] else [.grow r.index l.size.requested r.width]
  let padding : List Layout.Edit :=
    if h : 1 ≤ r.pad.val then [.insertPadding ⟨r.pad, h, r.pad_le_max⟩ r.index] else []
  let edits := growth ++ padding
  return (.overspan r :: edits.map .edit, Layout.Edit.applyAll f edits)

def relocate? (f : FieldForest) : Checked (Option (List LogRecord × FieldForest)) := do
  return (← first? 0 0 f.leaves).bind (carryOut f)

def merged? (offset : UInt32) : Leaf → Leaf → Checked (Option BitWidth)
  | .padding v, .padding w => do
    let combined ← add (UInt32.ofNat v.bits) (UInt32.ofNat w.bits)
    return (BitWidth.ofNat combined.toNat).toOption.filter fun x =>
      !overspans offset.toNat x.bits 1
  | _, _ => .ok none

def firstMerger? (index : Nat) (offset : UInt32) : List Leaf → Checked (Option Layout.Edit)
  | a :: b :: ls => do
    match ← merged? offset a b with
    | some w => return some (.mergePadding index w)
    | none => firstMerger? (index + 1) (← add offset (← bits a)) (b :: ls)
  | _ => .ok none

def merge? (f : FieldForest) : Checked (Option (List LogRecord × FieldForest)) := do
  return (← firstMerger? 0 0 f.leaves).map fun e => ([.edit e], e.apply f)

/-- The change is looked for once more than it can be made. -/
def settle (change? : FieldForest → Checked (Option (List LogRecord × FieldForest))) :
    Nat → FieldForest → Checked (List LogRecord × FieldForest)
  | 0, f => do
    let _ ← change? f
    return ([], f)
  | fuel + 1, f => do
    match ← change? f with
    | none => return ([], f)
    | some (records, g) =>
      let later ← settle change? fuel g
      return (records ++ later.1, later.2)

def alignToByte (f : FieldForest) : Checked (List LogRecord × FieldForest) := do
  let total ← sum bits 0 f
  if h : total.toNat % 8 = 0 then return ([], f)
  else
    let width : BitWidth := ⟨8 - total.toNat % 8, by omega, by omega⟩
    let padded ← add total (UInt32.ofNat width.bits)
    let e := Layout.Edit.appendPadding width padded
    return ([.edit e], e.apply f)

def layout (f : FieldForest) : Checked (List LogRecord × FieldForest) := do
  let before ← sum bits 0 f
  let moved ← settle relocate? f.leaves.length f
  let aligned ← alignToByte moved.2
  let merged ← settle merge? aligned.2.leaves.length aligned.2
  let after ← sum bits 0 merged.2
  return (.bitsBefore before :: moved.1 ++ aligned.1 ++ merged.1 ++ [.bitsAfter after], merged.2)

/-- A report that is refused for its id, or for what it is built from, is not laid out. -/
def build (kind : ReportKind) (id : UInt8) (children : FieldForest) :
    Checked (Logged Report) :=
  if id = 0 then
    return Logged.ofExcept (.error (.outOfRange .reportId 0 1 255))
  else if children.isEmpty then
    return Logged.ofExcept (.error (.missing .reportChildren))
  else if children.leaves.any fun l => l.report?.any (· ≠ kind) then
    return Logged.ofExcept (.error (.conflict .reportKindMismatch))
  else do
    let laidOut ← layout children
    return do
      Logged.write (.layingOut kind id :: laidOut.1)
      if laidOut.2.isOnlyPadding then
        Logged.ofExcept (.error (.onlyPadding .report))
      else
        return ⟨kind, id, laidOut.2⟩

def sizeInBytes (r : Report) : Checked Nat := do
  return (← sum bits 0 r.children).toNat / 8 + 1

end Words

end ReportDescriptor
