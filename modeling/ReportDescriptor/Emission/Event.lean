import ReportDescriptor.Descriptor.Basic

/-!
# Emission events

Writing a tree comes down to a list of events: the items in order, a note wherever variables have
come to share a main item, and a stray field where a main item would have to stand outside of a
report. Every field states all of its globals, and takes its main item from the report around it.
-/

namespace ReportDescriptor

inductive Event
  | item (i : ShortItem)
  | combining (count : Nat) (page : UInt16)
  | strayField
deriving DecidableEq

namespace Event

def item? : Event → Option ShortItem
  | item i => some i
  | _ => none

/-- The main item of a field, if there is a report around it. -/
def main (report : Option ReportKind) (word : Nat) : Event :=
  report.elim strayField fun r => item (.main r (UInt32.ofNat word))

end Event

namespace Emission

/-- One usage item each, after the page of the first. -/
def usageItems (usages : List DocumentedUsage) : List ShortItem :=
  match usages with
  | [] => []
  | u :: _ => .ofNat .usagePage u.page.toNat :: usages.map fun v => .ofNat .usage v.id.toNat

def usageRangeItems (r : UsageRange) : List ShortItem :=
  [.ofNat .usagePage r.page.toNat, .ofNat .usageMinimum r.first.id.toNat,
    .ofNat .usageMaximum r.last.id.toNat]

def globalItems (f : DataField) (count : Nat) : List ShortItem :=
  [.signed .logicalMinimum f.logical.min, .signed .logicalMaximum f.logical.max,
    .signed .physicalMinimum f.declaredPhysical.min,
    .signed .physicalMaximum f.declaredPhysical.max,
    .ofNat .unitExponent (f.unitExponent.elim 0 Exponent.code),
    .ofNat .unit (f.unit.elim 0 PhysicalUnit.word),
    .ofNat .reportSize f.size.adjusted, .ofNat .reportCount count]

def dataEvents (report : Option ReportKind) (usages : List ShortItem) (f : DataField)
    (count : Nat) (grouping : Grouping) : List Event :=
  (usages ++ globalItems f count).map .item ++ [.main report (f.flags.word grouping)]

def paddingEvents (report : Option ReportKind) (w : BitWidth) : List Event :=
  [.item (.ofNat .reportSize w.bits), .item (.ofNat .reportCount 1),
    .main report (DataFlags.padding.word .variables)]

def leafEvents (report : Option ReportKind) : Leaf → List Event
  | .single v => dataEvents report (usageItems [v.usage]) v.field v.count.value .variables
  | .range v => dataEvents report (usageRangeItems v.usages) v.field v.count.value .variables
  | .array s => dataEvents report (usageRangeItems s.usages) s.field s.count.value .array
  | .padding w => paddingEvents report w

/-- Neighbouring variables that share a main item: the first, and the others from the last on. -/
structure Run where
  first : Variable
  others : List Variable := []

namespace Run

def members (r : Run) : List Variable :=
  r.first :: r.others.reverse

def events (report : Option ReportKind) (r : Run) : List Event :=
  if r.others.isEmpty then leafEvents report (.single r.first)
  else
    let count := r.members.length
    .combining count r.first.usage.page ::
      dataEvents report (usageItems (r.members.map Variable.usage)) r.first.field count .variables

end Run

def openCollection (usage : DocumentedUsage) (type : CollectionType) : List Event :=
  [.item (.ofNat .usagePage usage.page.toNat), .item (.ofNat .usage usage.id.toNat),
    .item (.ofNat .collection type.code)]

def closeCollection : List Event :=
  [.item (.empty .endCollection)]

/-- The siblings from some point on, where `run` has been met but not yet written. -/
def siblingEvents (optimize : Bool) (report : Option ReportKind) :
    Option Run → FieldForest → List Event
  | run, .nil => run.elim [] (Run.events report)
  | run, .leaf (.single v) rest =>
    match run with
    | none =>
      if optimize then siblingEvents optimize report (some ⟨v, []⟩) rest
      else leafEvents report (.single v) ++ siblingEvents optimize report none rest
    | some r =>
      if r.first.combinableWith v then
        siblingEvents optimize report (some { r with others := v :: r.others }) rest
      else r.events report ++ siblingEvents optimize report (some ⟨v, []⟩) rest
  | run, .leaf l rest =>
    run.elim [] (Run.events report) ++ leafEvents report l ++
      siblingEvents optimize report none rest
  | run, .node c children rest =>
    run.elim [] (Run.events report) ++ openCollection c.usage c.kind.type ++
      siblingEvents optimize report none children ++ closeCollection ++
      siblingEvents optimize report none rest

def reportEvents (optimize : Bool) (r : Report) : List Event :=
  .item (.ofNat .reportId r.id.toNat) :: siblingEvents optimize (some r.kind) none r.children

def applicationEvents (optimize : Bool) (a : Application) : List Event :=
  openCollection a.usage .application ++ a.reports.flatMap (reportEvents optimize) ++
    closeCollection

end Emission

/-- What can be written on its own. -/
inductive Element
  | leaf (l : Leaf)
  | collection (c : Collection) (children : FieldForest)
  | report (r : Report)
  | application (a : Application)
deriving DecidableEq

namespace Element

/-- The trees of a forest, one by one. -/
def ofForest : FieldForest → List Element
  | .nil => []
  | .leaf l rest => leaf l :: ofForest rest
  | .node c children rest => collection c children :: ofForest rest

open Emission

def events (optimize : Bool) : Element → List Event
  | leaf l => leafEvents none l
  | collection c children =>
    openCollection c.usage c.kind.type ++ siblingEvents optimize none none children ++
      closeCollection
  | report r => reportEvents optimize r
  | application a => applicationEvents optimize a

end Element

end ReportDescriptor
