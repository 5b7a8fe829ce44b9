import ReportDescriptor.Emission.Elision
import ReportDescriptor.Emission.Event
import ReportDescriptor.Options

/-!
# Emission

The events of a list of elements become the items of a descriptor, unless there is a stray field
among them. Elision looks at the items alone, so it works across all elements.
-/

namespace ReportDescriptor

namespace Emission

def items (events : List Event) : Except Error (List ShortItem) :=
  if .strayField ∈ events then .error .fieldOutsideReport
  else .ok (events.filterMap Event.item?)

/-- What is noted up to the first stray field. With elision each item that is left out is. -/
def records (elide : Bool) (t : GlobalState) : List Event → List LogRecord
  | [] => []
  | .item i :: es =>
    if elide && t.isRedundant i then .eliding i :: records elide t es
    else records elide (t.after i) es
  | .combining count page :: es => .combining count page :: records elide t es
  | .strayField :: _ => []

def emit (options : Options) (elements : List Element) : Logged (List ShortItem) :=
  let events := elements.flatMap (Element.events options.optimize)
  let keep := if options.elide then GlobalState.dropRedundant {} else id
  ⟨records options.elide {} events, (items events).map keep⟩

end Emission

namespace Descriptor

def elements (d : Descriptor) : List Element :=
  d.applications.map .application

def items (d : Descriptor) (options : Options) : Logged (List ShortItem) :=
  Emission.emit options d.elements

end Descriptor

end ReportDescriptor
