import ReportDescriptor.CollectionType
import ReportDescriptor.Forest.Path
import ReportDescriptor.Item.Codec
import ReportDescriptor.Proofs.Reading.Globals
import ReportDescriptor.Proofs.Reading.Word
import ReportDescriptor.Usage.Basic

/-!
# Reading descriptors

How a host understands a list of items. Global items stay in force until they are stated again,
local items are collected up to the next main item. A collection item opens a collection, and the
main item of a field makes as many values as the report count in force says, each of the report
size in force, one after the other in the report with the id in force.
-/

namespace ReportDescriptor

namespace Globals

variable (g : Globals)

def unsigned? (k : ItemKind) : Option Nat :=
  match g k with
  | some (.unsigned v) => some v.toNat
  | _ => none

def signed? (k : ItemKind) : Option Int32 :=
  match g k with
  | some (.signed v) => some v
  | _ => none

end Globals

/-- What the globals in force say about the meaning of a value. -/
structure Attributes where
  logicalMinimum : Option Int32 := none
  logicalMaximum : Option Int32 := none
  physicalMinimum : Option Int32 := none
  physicalMaximum : Option Int32 := none
  unitExponent : Option Exponent := none
  unit : Option PhysicalUnit := none
deriving DecidableEq

def Globals.attributes (g : Globals) : Attributes where
  logicalMinimum := g.signed? .logicalMinimum
  logicalMaximum := g.signed? .logicalMaximum
  physicalMinimum := g.signed? .physicalMinimum
  physicalMaximum := g.signed? .physicalMaximum
  unitExponent := (g.unsigned? .unitExponent).map Exponent.ofCode
  unit := (g.unsigned? .unit).bind PhysicalUnit.ofWord?

/-- One value of a report: where it lies, and what is said about it. -/
structure Slot where
  report : ReportKind
  id : Nat
  offset : Nat
  size : Nat
  usages : List Usage
  attributes : Attributes
  grouping : Grouping
  alternates : List Attribute
deriving DecidableEq

structure CollectionHead where
  type : CollectionType
  usage : Usage
deriving DecidableEq

abbrev SlotForest := Forest CollectionHead Slot

/-- The next free bit of each report, by kind and id. -/
abbrev Cursors := ReportKind → Nat → Nat

namespace Cursors

def start : Cursors := fun _ _ => 0

def advance (c : Cursors) (r : ReportKind) (id bits : Nat) : Cursors :=
  fun r' id' => if r' = r ∧ id' = id then c r' id' + bits else c r' id'

end Cursors

/-- The usage that a local item names. One with four data bytes brings its own page along,
others are on the page in force. -/
def ShortItem.usage? (page : Option Nat) (i : ShortItem) : Option Usage :=
  match i.value with
  | .unsigned v =>
    if i.dataBytes.length = 4 then some (.ofValue v)
    else page.map fun p => ⟨UInt16.ofNat p, UInt16.ofNat v.toNat⟩
  | _ => none

/-- The usages of local items of a kind. -/
def usagesOf (page : Option Nat) (k : ItemKind) (locals : List ShortItem) : List Usage :=
  (locals.filter (·.kind = k)).filterMap (ShortItem.usage? page)

/-- The usages between two of one page, both included. -/
def usagesBetween (first last : Usage) : List Usage :=
  (List.range' first.id.toNat (last.id.toNat + 1 - first.id.toNat)).map fun n =>
    ⟨first.page, UInt16.ofNat n⟩

/-- The usages of value number `i`. Of a list of single usages each value of a variable takes
the next, and the last is taken again and again; in a range each takes the one so many after the
first. An index of an array may select any usage of the list or the range. -/
def slotUsages (grouping : Grouping) (singles first last : List Usage) (i : Nat) : List Usage :=
  match grouping, singles, first, last with
  | .variables, u :: us, _, _ => [(u :: us).getD i (us.getLastD u)]
  | .variables, [], a :: _, _ => [⟨a.page, UInt16.ofNat (a.id.toNat + i)⟩]
  | .array, [], a :: _, b :: _ => usagesBetween a b
  | _, us, _, _ => us

structure Reader where
  globals : Globals := .empty
  locals : List ShortItem := []
  /-- The open collections, the innermost first, each with what stands before it. -/
  opened : List (CollectionHead × SlotForest) := []
  read : SlotForest := .nil
  cursors : Cursors := .start

namespace Reader

variable (s : Reader)

def page? : Option Nat :=
  s.globals.unsigned? .usagePage

/-- Reports without an id count as those with id zero. -/
def reportId : Nat :=
  (s.globals.unsigned? .reportId).getD 0

def slot (r : ReportKind) (word size i : Nat) : Slot :=
  let grouping := DataFlags.readGrouping word
  { report := r
    id := s.reportId
    offset := s.cursors r s.reportId + i * size
    size := size
    usages := slotUsages grouping (usagesOf s.page? .usage s.locals)
      (usagesOf s.page? .usageMinimum s.locals) (usagesOf s.page? .usageMaximum s.locals) i
    attributes := s.globals.attributes
    grouping := grouping
    alternates := DataFlags.readAlternates word }

def field? (r : ReportKind) (i : ShortItem) : Option Reader :=
  match i.value, s.globals.unsigned? .reportSize, s.globals.unsigned? .reportCount with
  | .unsigned word, some size, some count =>
    let slots := (List.range count).map (s.slot r word.toNat size)
    some { s with
      locals := []
      read := s.read ++ .prepend slots .nil
      cursors := s.cursors.advance r s.reportId (count * size) }
  | _, _, _ => none

def openCollection? (i : ShortItem) : Option Reader :=
  match i.value, usagesOf s.page? .usage s.locals with
  | .unsigned code, usage :: _ =>
    (CollectionType.ofCode? code.toNat).map fun type =>
      { s with locals := [], opened := (⟨type, usage⟩, s.read) :: s.opened, read := .nil }
  | _, _ => none

def closeCollection? : Option Reader :=
  match s.opened with
  | (head, before) :: opened =>
    some { s with locals := [], opened := opened, read := before ++ .node head s.read .nil }
  | [] => none

def main? (i : ShortItem) : Option Reader :=
  match i.kind.report? with
  | some r => s.field? r i
  | none => if i.kind = .collection then s.openCollection? i else s.closeCollection?

def step? (i : ShortItem) : Option Reader :=
  match i.kind.category with
  | .mainItem => s.main? i
  | .globalItem => some { s with globals := s.globals.after i }
  | .localItem => some { s with locals := s.locals ++ [i] }

def run? (is : List ShortItem) : Option Reader :=
  is.foldlM step? s

/-- What a whole descriptor is read as, provided that every collection is closed in the end. -/
def read? (is : List ShortItem) : Option SlotForest :=
  (run? {} is).bind fun s => if s.opened.isEmpty then some s.read else none

variable {s}

@[simp] theorem run?_nil (s : Reader) : s.run? [] = some s := rfl

@[simp] theorem run?_cons (s : Reader) (i : ShortItem) (is : List ShortItem) :
    s.run? (i :: is) = (s.step? i).bind fun t => t.run? is := rfl

@[simp] theorem run?_append (s : Reader) (is js : List ShortItem) :
    s.run? (is ++ js) = (s.run? is).bind fun t => t.run? js :=
  List.foldlM_append

theorem step?_globalItem {i : ShortItem} (h : i.kind.category = .globalItem) :
    s.step? i = some { s with globals := s.globals.after i } := by
  rw [step?, h]

theorem step?_localItem {i : ShortItem} (h : i.kind.category = .localItem) :
    s.step? i = some { s with locals := s.locals ++ [i] } := by
  rw [step?, h]

theorem step?_mainItem {i : ShortItem} (h : i.kind.category = .mainItem) :
    s.step? i = s.main? i := by
  rw [step?, h]

/-- Up to the next main item, reading only takes notes. -/
theorem run?_of_forall_ne_mainItem {is : List ShortItem}
    (h : ∀ i ∈ is, i.kind.category ≠ .mainItem) :
    s.run? is = some { s with
      globals := s.globals.afterAll is
      locals := s.locals ++ is.filter (·.kind.category = .localItem) } := by
  induction is generalizing s with
  | nil => simp
  | cons i is ih =>
    have hrest : ∀ j ∈ is, j.kind.category ≠ .mainItem := fun j hj =>
      h j (List.mem_cons_of_mem i hj)
    cases hi : i.kind.category with
    | mainItem => exact absurd hi (h i List.mem_cons_self)
    | globalItem =>
      rw [run?_cons, step?_globalItem hi, Option.bind_some, ih hrest, Globals.afterAll_cons,
        List.filter_cons_of_neg (by simp [hi])]
    | localItem =>
      rw [run?_cons, step?_localItem hi, Option.bind_some, ih hrest, Globals.afterAll_cons,
        Globals.after_of_ne_globalItem _ (by simp [hi]), List.filter_cons_of_pos (by simp [hi]),
        List.append_assoc, List.singleton_append]

end Reader

end ReportDescriptor
