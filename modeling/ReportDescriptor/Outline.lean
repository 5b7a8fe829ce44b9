import ReportDescriptor.Descriptor.Basic
import ReportDescriptor.Field.Build

/-!
# Outlines

An outline describes a whole descriptor before anything of it is built. Building goes depth
first and from left to right, and ends at the first fault.
-/

namespace ReportDescriptor

/-- A field and the report it is for, if that is not the report around it. The settings may be
at fault already where they were put together. -/
structure FieldOutline where
  spec : Except Error FieldSpec
  report : Option ReportKind := none

structure CollectionOutline where
  kind : CollectionKind
  usage : DocumentedUsage

abbrev ForestOutline := Forest CollectionOutline FieldOutline

structure ReportOutline where
  kind : ReportKind
  id : UInt8
  children : ForestOutline

structure ApplicationOutline where
  usage : DocumentedUsage
  reports : List ReportOutline

namespace FieldOutline

def build (f : FieldOutline) (around : ReportKind) (ctx : BuildContext) : Except Error Leaf := do
  let spec ← f.spec
  Leaf.build spec (f.report.getD around) ctx

end FieldOutline

namespace CollectionOutline

def build (c : CollectionOutline) (children : FieldForest) : Except Error FieldForest :=
  Collection.build ⟨c.kind, c.usage⟩ children

end CollectionOutline

namespace ForestOutline

/-- A collection is built after its children and before what follows it. -/
def build (around : ReportKind) (ctx : BuildContext) : ForestOutline → Except Error FieldForest
  | .nil => .ok .nil
  | .leaf f rest => do
    let l ← f.build around ctx
    let more ← build around ctx rest
    return .leaf l more
  | .node c children rest => do
    let inner ← build around ctx children
    let tree ← c.build inner
    let more ← build around ctx rest
    return tree ++ more

end ForestOutline

namespace ReportOutline

def build (r : ReportOutline) (ctx : BuildContext) : Logged Report := do
  let children ← (ForestOutline.build r.kind ctx r.children : Except Error FieldForest)
  Report.build r.kind r.id children

end ReportOutline

namespace ApplicationOutline

def build (a : ApplicationOutline) (ctx : BuildContext) : Logged Application := do
  let reports ← a.reports.mapM (ReportOutline.build · ctx)
  Application.build a.usage reports

end ApplicationOutline

def Descriptor.ofOutline (apps : List ApplicationOutline) (ctx : BuildContext) :
    Logged Descriptor := do
  let applications ← apps.mapM (ApplicationOutline.build · ctx)
  Descriptor.build applications

end ReportDescriptor
