import ReportDescriptor.Item.Basic
import ReportDescriptor.Item.Truncation
import ReportDescriptor.Total

/-!
# Items as bytes

An item is written as its first byte and its truncated value. Reading accepts longer data than
writing produces, and data on items that need none.
-/

namespace ReportDescriptor

namespace ShortItem

def dataBytes (i : ShortItem) : List UInt8 :=
  match i.value with
  | .none => []
  | .unsigned v => Truncation.unsigned v
  | .signed v => Truncation.signed v

/-- Four bytes have the code three. -/
def sizeCode (length : Nat) : Nat :=
  min length 3

def dataLength (sizeCode : Nat) : Nat :=
  if sizeCode = 3 then 4 else sizeCode

def toBytes (i : ShortItem) : List UInt8 :=
  i.kind.leadByte (sizeCode i.dataBytes.length) :: i.dataBytes

def valueOfData (k : ItemKind) (data : List UInt8) : ItemValue :=
  if data.isEmpty && !k.hasData then .none
  else if k.isSigned then .signed (Truncation.signExtend data)
  else .unsigned (Truncation.zeroExtend data)

/-- The first item and the number of bytes it takes. -/
def decode? : List UInt8 → Option (ShortItem × Nat)
  | [] => none
  | b :: rest => do
    let k ← ItemKind.ofLeadByte? b
    let n := dataLength (b.toNat % 4)
    let data := rest.take n
    if data.length = n then some (⟨k, valueOfData k data⟩, 1 + n) else none

theorem length_of_decode? {bs : List UInt8} {i : ShortItem} {n : Nat}
    (h : decode? bs = some (i, n)) : 0 < n ∧ n ≤ bs.length := by
  cases bs with
  | nil => cases h
  | cons b rest =>
    simp only [decode?, Option.bind_eq_bind, Option.bind_eq_some_iff] at h
    obtain ⟨k, _, h⟩ := h
    split at h
    · rename_i hlen
      simp only [Option.some.injEq, Prod.mk.injEq] at h
      simp only [List.length_take] at hlen
      simp only [List.length_cons]
      omega
    · cases h

/-- All items up to the first byte that opens none, each with the number of its bytes. -/
def decodeAll (bs : List UInt8) : List (ShortItem × Nat) :=
  match _h : decode? bs with
  | none => []
  | some (i, n) => (i, n) :: decodeAll (bs.drop n)
termination_by bs.length
decreasing_by
  have hn := length_of_decode? _h
  simp only [List.length_drop]
  omega

end ShortItem

end ReportDescriptor
