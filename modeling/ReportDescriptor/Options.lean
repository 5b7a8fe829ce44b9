import ReportDescriptor.Field.Width

/-!
# Options

What a caller may choose about a descriptor: how fields are packed, whether equal neighbours
share a main item, and whether global items that change nothing are left out.
-/

namespace ReportDescriptor

structure Options where
  packing : Packing := .tight
  optimize : Bool := false
  elide : Bool := false
deriving DecidableEq

end ReportDescriptor
