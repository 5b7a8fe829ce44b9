import ReportDescriptor.Field.Leaf

/-!
# Overspan

No value may end more than 32 bits after the start of the byte it starts in. A field with a value
that does is given leading padding or, if that alone does not help, a larger size.
-/

namespace ReportDescriptor

/-- Whether one of `count` values of `size` bits, the first at bit `offset`, reaches too far. The
positions within a byte repeat after eight values. -/
def overspans (offset size count : Nat) : Bool :=
  (List.range (min count 8)).any fun i => 32 < (offset + i * size) % 8 + size

/-- Where a field comes to lie that must be moved: its index among the leaves and the bit at
which it would have started, counted in words, its width and the number of bits of padding before
it. -/
structure Relocation where
  index : Nat
  offset : UInt32
  width : BitWidth
  pad : Fin 8
deriving DecidableEq

namespace Relocation

/-- Widths from the requested one on, in ascending order. -/
def widths (s : FieldSize) : List BitWidth :=
  BitWidth.all.filter fun w => s.requested.bits ≤ w.bits

def leastPad? (offset : Nat) (s : FieldSize) (count : Nat) (w : BitWidth) : Option (Fin 8) :=
  (List.finRange 8).find? fun pad =>
    !overspans (offset + pad) { s with requested := w }.adjusted count

/-- The least width, and for it the least padding, with which no value overspans. -/
def fitting? (offset : Nat) (s : FieldSize) (count : Nat) : Option (BitWidth × Fin 8) :=
  (widths s).findSome? fun w => (leastPad? offset s count w).map (w, ·)

/-- The first leaf that overspans, in a list that begins at leaf `index` and bit `offset`. -/
def first? (index offset : Nat) : List Leaf → Option Relocation
  | [] => none
  | l :: ls =>
    if overspans offset l.size.adjusted l.count.value then
      (fitting? offset l.size l.count.value).map fun (w, pad) =>
        ⟨index, UInt32.ofNat offset, w, pad⟩
    else first? (index + 1) (offset + l.bits) ls

end Relocation

end ReportDescriptor
