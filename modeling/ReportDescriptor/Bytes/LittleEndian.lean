/-!
# Little-endian bytes

Numbers as lists of bytes, least significant byte first. Writing takes the lowest bytes of an
integer, of a negative one in two's complement; reading comes in an unsigned and a signed form.
-/

namespace ReportDescriptor

namespace LittleEndian

/-- The lowest `w` bytes of `n`. Division rounds down, which keeps the sign of what is left. -/
def toBytes : Nat → Int → List UInt8
  | 0, _ => []
  | w + 1, n => UInt8.ofInt n :: toBytes w (n / 256)

def ofBytes : List UInt8 → Nat
  | [] => 0
  | b :: bs => b.toNat + 256 * ofBytes bs

/-- The highest bit of the last byte is the sign. -/
def ofSignedBytes : List UInt8 → Int
  | [] => 0
  | [b] => b.toInt8.toInt
  | b :: bs => b.toNat + 256 * ofSignedBytes bs

@[simp] theorem length_toBytes (w : Nat) (n : Int) : (toBytes w n).length = w := by
  induction w generalizing n with
  | zero => rfl
  | succ w ih => rw [toBytes, List.length_cons, ih]

theorem toNat_ofInt_byte (n : Int) : ((UInt8.ofInt n).toNat : Int) = n % 256 := by
  simp only [UInt8.ofInt, UInt8.toNat_ofNat']
  omega

/-- Bytes are what they are written as again. -/
theorem toBytes_ofBytes (bs : List UInt8) : toBytes bs.length (ofBytes bs) = bs := by
  induction bs with
  | nil => rfl
  | cons b bs ih =>
    have hb := b.toNat_lt
    have hdiv : ((b.toNat + 256 * ofBytes bs : Nat) : Int) / 256 = ofBytes bs := by omega
    have hlow : UInt8.ofInt ((b.toNat + 256 * ofBytes bs : Nat) : Int) = b := by
      apply UInt8.toNat.inj
      have h := toNat_ofInt_byte ((b.toNat + 256 * ofBytes bs : Nat) : Int)
      omega
    rw [List.length_cons, toBytes, ofBytes, hdiv, hlow, ih]

end LittleEndian

end ReportDescriptor
