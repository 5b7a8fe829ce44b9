import ReportDescriptor.CollectionType
import ReportDescriptor.Item.Basic
import ReportDescriptor.Text.Hex
import ReportDescriptor.Unit.Exponent

/-!
# Items as text

The label of an item and, in parentheses, what its number means for that kind of item.
-/

namespace ReportDescriptor

/-- What the data of a main item says. The first three bits always show, the others only when
they are one; volatility is not shown for input reports. -/
def attributeNames (v : UInt32) (r : ReportKind) : List String :=
  let bit := v.toNat.testBit
  let optional := [(3, "Wrap"), (4, "NLin"), (5, "NPrf"), (6, "Null"), (7, "Vol"), (8, "Buf")]
  (if bit 0 then "Cnst" else "Data") :: (if bit 1 then "Var" else "Arr") ::
    (if bit 2 then "Rel" else "Abs") ::
    (optional.filter fun (n, _) => bit n && !(n = 7 && r = .input)).map Prod.snd

namespace ShortItem

/-- Pages, usages and units are shown in hexadecimal; a unit exponent as what its code means. -/
def numberText (k : ItemKind) (v : UInt32) : String :=
  match k with
  | .input => ", ".intercalate (attributeNames v .input)
  | .output => ", ".intercalate (attributeNames v .output)
  | .feature => ", ".intercalate (attributeNames v .feature)
  | .collection =>
    match CollectionType.ofCode? v.toNat with
    | some t => t.label
    | none => Hex.number 2 v.toNat
  | .usagePage | .usage | .usageMinimum | .usageMaximum | .unit => Hex.number 4 v.toNat
  | .unitExponent => toString (Exponent.ofCode v.toNat).value
  | _ => toString v.toNat

def text (i : ShortItem) : String :=
  match i.value with
  | .none => i.kind.label
  | .signed v => s!"{i.kind.label} ({v.toInt})"
  | .unsigned v => s!"{i.kind.label} ({numberText i.kind v})"

example : (main .feature 0x83).text = "Feature (Cnst, Var, Abs, Vol)" := by decide +kernel
example : (unsigned .unitExponent 0xe).text = "Unit Exponent (-2)" := by decide +kernel
example : (unsigned .collection 7).text = "Collection (0x07)" := by decide +kernel
example : (signed .logicalMinimum (-127)).text = "Logical Minimum (-127)" := by decide +kernel

end ShortItem

end ReportDescriptor
