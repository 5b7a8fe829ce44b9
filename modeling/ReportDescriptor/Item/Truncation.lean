import ReportDescriptor.Bytes.LittleEndian

/-!
# Truncated values

The data of an item takes as few bytes as its value allows: one, two or four, since a length of
three cannot be expressed. Unsigned values are read back with zeros on top, signed ones with
their sign.
-/

namespace ReportDescriptor

namespace Truncation

open LittleEndian

def unsignedLength (v : UInt32) : Nat :=
  if v.toNat < 256 then 1 else if v.toNat < 65536 then 2 else 4

def signedLength (v : Int32) : Nat :=
  if -128 ≤ v.toInt ∧ v.toInt < 128 then 1
  else if -32768 ≤ v.toInt ∧ v.toInt < 32768 then 2
  else 4

def unsigned (v : UInt32) : List UInt8 :=
  toBytes (unsignedLength v) v.toNat

def signed (v : Int32) : List UInt8 :=
  toBytes (signedLength v) v.toInt

def zeroExtend (bs : List UInt8) : UInt32 :=
  UInt32.ofNat (ofBytes bs)

def signExtend (bs : List UInt8) : Int32 :=
  Int32.ofInt (ofSignedBytes bs)

@[simp] theorem length_unsigned (v : UInt32) : (unsigned v).length = unsignedLength v :=
  length_toBytes _ _

@[simp] theorem length_signed (v : Int32) : (signed v).length = signedLength v :=
  length_toBytes _ _

end Truncation

end ReportDescriptor
