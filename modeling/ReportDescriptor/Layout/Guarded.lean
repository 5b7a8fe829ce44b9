import ReportDescriptor.Report

/-!
# Guarded layout

The layout of a report takes some things for granted: that every field fits somewhere, that every
index leads to a leaf, that padding is as wide as padding can be, and that a pass comes to an end.
Here each of these is looked at where it is needed, and the layout is given up where it does not
hold.
-/

namespace ReportDescriptor

namespace Guarded

open Layout

/-- What the layout takes for granted and does not find. -/
inductive Fault
  | noFit (offset : Nat) (size : FieldSize) (count : Nat)
  | noPath (index : Nat)
  | noLeaf (path : Path)
  | refused (e : Error)
  | unsettled
deriving DecidableEq

abbrev Attempt := Except Fault

def require {α : Type} (fault : Fault) : Option α → Attempt α
  | some a => .ok a
  | none => .error fault

/-- The width and the padding with which a field fits, which is only asked for if it overspans. -/
def fitting (offset : Nat) (s : FieldSize) (count : Nat) : Attempt (BitWidth × Fin 8) :=
  require (.noFit offset s count) (Relocation.fitting? offset s count)

def first? (index offset : Nat) : List Leaf → Attempt (Option Relocation)
  | [] => .ok none
  | l :: ls =>
    if overspans offset l.size.adjusted l.count.value then do
      let (w, pad) ← fitting offset l.size l.count.value
      return some ⟨index, UInt32.ofNat offset, w, pad⟩
    else first? (index + 1) (offset + l.bits) ls

def paddingWidth (bits : Nat) : Attempt BitWidth :=
  (BitWidth.ofNat bits).mapError .refused

def path (f : FieldForest) (index : Nat) : Attempt Path :=
  require (.noPath index) f.leafPaths[index]?

def leafAt (f : FieldForest) (p : Path) : Attempt Leaf :=
  require (.noLeaf p) (f.leafAt? p)

/-- Replaces the leaf that a path leads to. -/
def spliceAt (g : Leaf → List Leaf) (f : FieldForest) (p : Path) : Attempt FieldForest := do
  let _ ← leafAt f p
  return f.spliceAt g p

def apply (f : FieldForest) : Edit → Attempt FieldForest
  | .grow i _ new => do spliceAt (fun l => [l.withRequested new]) f (← path f i)
  | .insertPadding w i => do spliceAt (fun l => [.padding w, l]) f (← path f i)
  | .appendPadding w _ => .ok (f ++ .leaf (.padding w) .nil)
  | .mergePadding i combined => do
    let p ← path f i
    let q ← path f (i + 1)
    spliceAt (fun _ => []) (← spliceAt (fun l => [l.withRequested combined]) f p) q

def relocate? (f : FieldForest) : Attempt (Option (List LogRecord × FieldForest)) := do
  match ← first? 0 0 f.leaves with
  | none => return none
  | some r =>
    let l ← leafAt f (← path f r.index)
    let growth : List Edit :=
      if l.size.requested = r.width then [] else [.grow r.index l.size.requested r.width]
    let padding : List Edit ←
      if r.pad.val = 0 then pure []
      else do
        let w ← paddingWidth r.pad
        pure [.insertPadding w r.index]
    let edits := growth ++ padding
    return some (.overspan r :: edits.map .edit, ← edits.foldlM apply f)

def merge? (f : FieldForest) : Attempt (Option (List LogRecord × FieldForest)) := do
  match firstMerger? 0 0 f.leaves with
  | none => return none
  | some e => return some ([.edit e], ← apply f e)

/-- Nothing may be left to do after as many changes as there can be. -/
def settle (change? : FieldForest → Attempt (Option (List LogRecord × FieldForest))) :
    Nat → FieldForest → Attempt (List LogRecord × FieldForest)
  | 0, f => do
    match ← change? f with
    | none => return ([], f)
    | some _ => .error .unsettled
  | fuel + 1, f => do
    match ← change? f with
    | none => return ([], f)
    | some (records, g) =>
      let later ← settle change? fuel g
      return (records ++ later.1, later.2)

def alignToByte (f : FieldForest) : Attempt (List LogRecord × FieldForest) := do
  let total := f.bits
  if total % 8 = 0 then return ([], f)
  else
    let width ← paddingWidth (8 - total % 8)
    let e := Edit.appendPadding width (UInt32.ofNat (total + width.bits))
    return ([.edit e], ← apply f e)

def layout (f : FieldForest) : Attempt (List LogRecord × FieldForest) := do
  let moved ← settle relocate? f.leaves.length f
  let aligned ← alignToByte moved.2
  let merged ← settle merge? aligned.2.leaves.length aligned.2
  return (.bitsBefore (UInt32.ofNat f.bits) :: moved.1 ++ aligned.1 ++ merged.1 ++
    [.bitsAfter (UInt32.ofNat merged.2.bits)], merged.2)

/-- A report is only laid out once nothing is left to refuse it for but its padding. -/
def build (kind : ReportKind) (id : UInt8) (children : FieldForest) : Attempt (Logged Report) :=
  if id = 0 then
    return Logged.ofExcept (.error (.outOfRange .reportId 0 1 255))
  else if children.isEmpty then
    return Logged.ofExcept (.error (.missing .reportChildren))
  else if children.leaves.any fun l => l.report?.any (· ≠ kind) then
    return Logged.ofExcept (.error (.conflict .reportKindMismatch))
  else do
    let laidOut ← layout children
    return do
      Logged.write (.layingOut kind id :: laidOut.1)
      if laidOut.2.isOnlyPadding then
        Logged.ofExcept (.error (.onlyPadding .report))
      else
        return ⟨kind, id, laidOut.2⟩

end Guarded

end ReportDescriptor
