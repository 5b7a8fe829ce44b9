/-!
# Hexadecimal text

Usages, units and collection codes are written as `0x` followed by at least a given number of
lower-case digits; the bytes of an item as two digits each.
-/

namespace ReportDescriptor

namespace Hex

/-- The digits of `n`, filled up with zeros on the left to at least `width`. -/
def digits (width n : Nat) : List Char :=
  let ds := Nat.toDigits 16 n
  List.replicate (width - ds.length) '0' ++ ds

def number (width n : Nat) : String :=
  "0x" ++ String.ofList (digits width n)

def byte (b : UInt8) : String :=
  String.ofList (digits 2 b.toNat)

end Hex

end ReportDescriptor
