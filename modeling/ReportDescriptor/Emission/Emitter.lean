import ReportDescriptor.Emission.Basic
import ReportDescriptor.Item.Codec

/-!
# The emitter

Elements are written one after another into one emitter, which keeps the items so far, the globals
that are in force if redundant ones are left out, and the report that is being written. Here it
goes through the tree itself and changes from item to item; a field met outside of a report ends
it, as does an item whose data have a length without a code.
-/

namespace ReportDescriptor

structure Emitter where
  items : List ShortItem := []
  optimize : Bool
  globals : Option GlobalState
  report : Option ReportKind := none

namespace Emitter

open Emission

def ofOptions (options : Options) : Emitter where
  optimize := options.optimize
  globals := if options.elide then some {} else none

variable (e : Emitter)

def push (i : ShortItem) : Logged Emitter :=
  match e.globals with
  | none => return { e with items := e.items ++ [i] }
  | some t =>
    if t.isRedundant i then do
      Logged.write [.eliding i]
      return e
    else return { e with items := e.items ++ [i], globals := some (t.after i) }

def pushAll (is : List ShortItem) : Logged Emitter :=
  is.foldlM push e

def mainItem (word : Nat) : Logged Emitter :=
  match e.report with
  | none => Logged.ofExcept (.error .fieldOutsideReport)
  | some r => e.push (.main r (UInt32.ofNat word))

def writeData (usages : List ShortItem) (f : DataField) (count : Nat) (grouping : Grouping) :
    Logged Emitter := do
  let e ← e.pushAll (usages ++ globalItems f count)
  e.mainItem (f.flags.word grouping)

def writePadding (w : BitWidth) : Logged Emitter := do
  let e ← e.pushAll [.ofNat .reportSize w.bits, .ofNat .reportCount 1]
  e.mainItem (DataFlags.padding.word .variables)

def writeLeaf : Leaf → Logged Emitter
  | .single v => e.writeData (usageItems [v.usage]) v.field v.count.value .variables
  | .range v => e.writeData (usageRangeItems v.usages) v.field v.count.value .variables
  | .array s => e.writeData (usageRangeItems s.usages) s.field s.count.value .array
  | .padding w => e.writePadding w

/-- Writes the variables that have been held back to share a main item. -/
def flush (run : List Variable) : Logged Emitter :=
  match run with
  | [] => return e
  | [v] => e.writeLeaf (.single v)
  | first :: _ => do
    Logged.write [.combining run.length first.usage.page]
    e.writeData (usageItems (run.map Variable.usage)) first.field run.length .variables

def openCollection (usage : DocumentedUsage) (type : CollectionType) : Logged Emitter :=
  e.pushAll [.ofNat .usagePage usage.page.toNat, .ofNat .usage usage.id.toNat,
    .ofNat .collection type.code]

def closeCollection : Logged Emitter :=
  e.push (.empty .endCollection)

/-- The siblings from some point on, with the variables held back so far. -/
def writeChildren (e : Emitter) (run : List Variable) : FieldForest → Logged Emitter
  | .nil => e.flush run
  | .leaf (.single v) rest =>
    if e.optimize then
      if run.head?.any fun first => first.combinableWith v then e.writeChildren (run ++ [v]) rest
      else do
        let e ← e.flush run
        e.writeChildren [v] rest
    else do
      let e ← e.flush run
      let e ← e.writeLeaf (.single v)
      e.writeChildren [] rest
  | .leaf l rest => do
    let e ← e.flush run
    let e ← e.writeLeaf l
    e.writeChildren [] rest
  | .node c inner rest => do
    let e ← e.flush run
    let e ← e.openCollection c.usage c.kind.type
    let e ← e.writeChildren [] inner
    let e ← e.closeCollection
    e.writeChildren [] rest

def writeReport (r : Report) : Logged Emitter := do
  let e ← push { e with report := some r.kind } (.ofNat .reportId r.id.toNat)
  let e ← e.writeChildren [] r.children
  return { e with report := none }

def writeApplication (a : Application) : Logged Emitter := do
  let e ← e.openCollection a.usage .application
  let e ← a.reports.foldlM writeReport e
  e.closeCollection

def write : Element → Logged Emitter
  | .leaf l => e.writeLeaf l
  | .collection c inner => do
    let e ← e.openCollection c.usage c.kind.type
    let e ← e.writeChildren [] inner
    e.closeCollection
  | .report r => e.writeReport r
  | .application a => e.writeApplication a

def writeAll (xs : List Element) : Logged Emitter :=
  xs.foldlM write e

def run (options : Options) (xs : List Element) : Logged (List ShortItem) :=
  items <$> (ofOptions options).writeAll xs

end Emitter

/-- The bytes of an item, or the length of its data if there is no code for that. -/
def ShortItem.encode (i : ShortItem) : Except Nat (List UInt8) := do
  let code ← match i.dataBytes.length with
    | 0 => .ok 0
    | 1 => .ok 1
    | 2 => .ok 2
    | 4 => .ok 3
    | n => .error n
  return i.kind.leadByte code :: i.dataBytes

end ReportDescriptor
