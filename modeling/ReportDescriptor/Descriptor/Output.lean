import ReportDescriptor.Emission.Basic
import ReportDescriptor.Item.Codec

/-!
# Descriptors as bytes and as a listing

The bytes of a descriptor are those of its items. The listing shows one item on each line, bytes
and text, indented by the collections that are open.
-/

namespace ReportDescriptor

namespace ShortItem

/-- The bytes in hexadecimal, apart by blanks and filled up to fifteen columns. -/
def byteColumn (i : ShortItem) : String :=
  let bytes := " ".intercalate (i.toBytes.map Hex.byte)
  bytes ++ String.ofList (List.replicate (15 - bytes.length) ' ')

def line (depth : Nat) (i : ShortItem) : String :=
  i.byteColumn ++ " " ++ String.join (List.replicate depth "  ") ++ i.text

/-- A collection contains the items after it, up to but without its end. -/
def lines (depth : Nat) : List ShortItem → List String
  | [] => []
  | i :: is =>
    let here := if i.kind = .endCollection then depth - 1 else depth
    i.line here :: lines (if i.kind = .collection then here + 1 else here) is

end ShortItem

namespace Descriptor

def toBytes (d : Descriptor) (options : Options) : Logged (List UInt8) := do
  let items ← d.items options
  let bytes := items.flatMap ShortItem.toBytes
  Logged.write [.descriptorLength bytes.length]
  return bytes

def summary (d : Descriptor) (options : Options) : Logged (List String) :=
  ShortItem.lines 0 <$> d.items options

end Descriptor

end ReportDescriptor
