import Mathlib.Algebra.Ring.Int.Defs
import ReportDescriptor.Item.Codec

/-!
# Items are read back

An item takes the shortest of the lengths that can be expressed, and its kind alone decides how
what was left out is filled in again. So an item is read back from its bytes, whatever follows
them, and a list of items from theirs.
-/

namespace ReportDescriptor

namespace LittleEndian

theorem ofBytes_toBytes {w : Nat} {n : Int} (h₀ : 0 ≤ n) (h : n < 256 ^ w) :
    (ofBytes (toBytes w n) : Int) = n := by
  induction w generalizing n with
  | zero =>
    rw [Int.pow_zero] at h
    rw [toBytes, ofBytes]
    omega
  | succ w ih =>
    rw [Int.pow_succ] at h
    have hhigh := ih (n := n / 256) (by omega) (by omega)
    have hlow := toNat_ofInt_byte n
    rw [toBytes, ofBytes]
    omega

def isNegative (b : UInt8) : Bool :=
  128 ≤ b.toNat

theorem toInt_toInt8 (b : UInt8) :
    b.toInt8.toInt = if isNegative b then (b.toNat : Int) - 256 else b.toNat := by
  have hb := b.toNat_lt
  rw [← Int8.toInt_toBitVec, UInt8.toBitVec_toInt8, BitVec.toInt_eq_toNat_cond, isNegative]
  simp only [UInt8.toNat_toBitVec, decide_eq_true_eq]
  split <;> split <;> omega

theorem toInt_toInt8_ofInt {n : Int} (h₀ : -128 ≤ n) (h : n < 128) :
    (UInt8.ofInt n).toInt8.toInt = n := by
  have hbyte := toNat_ofInt_byte n
  rw [toInt_toInt8, isNegative]
  simp only [decide_eq_true_eq]
  omega

/-- A signed number is what it is written as, as long as its sign fits in. -/
theorem ofSignedBytes_toBytes {w : Nat} {n : Int} (h₀ : -(128 * 256 ^ w) ≤ n)
    (h : n < 128 * 256 ^ w) : ofSignedBytes (toBytes (w + 1) n) = n := by
  induction w generalizing n with
  | zero =>
    rw [Int.pow_zero] at h₀ h
    exact toInt_toInt8_ofInt (by omega) (by omega)
  | succ w ih =>
    rw [Int.pow_succ] at h₀ h
    have hhigh := ih (n := n / 256) (by omega) (by omega)
    have hlow := toNat_ofInt_byte n
    rw [toBytes, toBytes, ofSignedBytes, ← toBytes, hhigh, hlow]
    · omega
    · exact List.cons_ne_nil _ _

end LittleEndian

namespace Truncation

open LittleEndian

theorem toNat_lt_pow_unsignedLength (v : UInt32) : (v.toNat : Int) < 256 ^ unsignedLength v := by
  have hv := v.toNat_lt
  rw [unsignedLength]
  split
  · omega
  · split <;> omega

/-- The sign bit is among the bytes that are kept. -/
theorem signedLength_eq_succ (v : Int32) :
    ∃ w, signedLength v = w + 1 ∧ -(128 * 256 ^ w) ≤ v.toInt ∧ v.toInt < 128 * 256 ^ w := by
  have hge := v.le_toInt
  have hlt := v.toInt_lt
  rw [signedLength]
  split
  · exact ⟨0, rfl, by omega, by omega⟩
  · split
    · exact ⟨1, rfl, by omega, by omega⟩
    · exact ⟨3, rfl, by omega, by omega⟩

/-- A number of data bytes that an item can have, other than none. -/
def Expressible (n : Nat) : Prop :=
  n = 1 ∨ n = 2 ∨ n = 4

theorem expressible_ite (p q : Prop) [Decidable p] [Decidable q] :
    Expressible (if p then 1 else if q then 2 else 4) := by
  split
  · exact .inl rfl
  · split
    · exact .inr (.inl rfl)
    · exact .inr (.inr rfl)

theorem expressible_unsignedLength (v : UInt32) : Expressible (unsignedLength v) :=
  expressible_ite _ _

theorem expressible_signedLength (v : Int32) : Expressible (signedLength v) :=
  expressible_ite _ _

theorem Expressible.le_four {n : Nat} (h : Expressible n) : n ≤ 4 := by
  rcases h with rfl | rfl | rfl <;> decide

theorem Expressible.ne_nil {bs : List UInt8} (h : Expressible bs.length) : bs ≠ [] := by
  rintro rfl
  rcases h with h | h | h <;> cases h

theorem unsigned_ne_nil (v : UInt32) : unsigned v ≠ [] :=
  Expressible.ne_nil (by rw [length_unsigned]; exact expressible_unsignedLength v)

theorem zeroExtend_unsigned (v : UInt32) : zeroExtend (unsigned v) = v := by
  have hread := ofBytes_toBytes (Int.natCast_nonneg _) (toNat_lt_pow_unsignedLength v)
  rw [zeroExtend, unsigned, Int.ofNat.inj hread, UInt32.ofNat_toNat]

theorem signExtend_signed (v : Int32) : signExtend (signed v) = v := by
  obtain ⟨w, hlength, hge, hlt⟩ := signedLength_eq_succ v
  rw [signExtend, signed, hlength, ofSignedBytes_toBytes hge hlt, Int32.ofInt_toInt]

end Truncation

namespace ItemKind

theorem leadByte_mod (k : ItemKind) {n : Nat} (h : n < 4) : (k.leadByte n).toNat % 4 = n := by
  rw [leadByte, UInt8.toNat_ofNat']
  omega

theorem hasData_of_isSigned {k : ItemKind} (h : k.isSigned = true) : k.hasData = true := by
  cases k <;> first | rfl | cases h

end ItemKind

namespace ShortItem

theorem length_dataBytes (i : ShortItem) :
    i.dataBytes.length = 0 ∨ Truncation.Expressible i.dataBytes.length := by
  rw [dataBytes]
  cases i.value with
  | none => exact .inl rfl
  | unsigned v =>
    rw [Truncation.length_unsigned]
    exact .inr (Truncation.expressible_unsignedLength v)
  | signed v =>
    rw [Truncation.length_signed]
    exact .inr (Truncation.expressible_signedLength v)

theorem dataLength_sizeCode (i : ShortItem) :
    dataLength (sizeCode i.dataBytes.length) = i.dataBytes.length := by
  rcases i.length_dataBytes with h | h | h | h <;> rw [h] <;> rfl

/-- An item that reading can give: data on a kind that needs none counts as unsigned. -/
def Readable (i : ShortItem) : Prop :=
  match i.value with
  | .none => i.kind.hasData = false
  | .unsigned _ => i.kind.isSigned = false
  | .signed _ => i.kind.isSigned = true

theorem WellFormed.readable {i : ShortItem} (h : i.WellFormed) : i.Readable := by
  rw [WellFormed] at h
  rw [Readable]
  cases hv : i.value with
  | none => rwa [hv] at h
  | unsigned v =>
    rw [hv] at h
    exact h.2
  | signed v => rwa [hv] at h

/-- The kind says how the bytes are to be extended. -/
theorem valueOfData_dataBytes {i : ShortItem} (h : i.Readable) :
    valueOfData i.kind i.dataBytes = i.value := by
  rw [Readable] at h
  rw [dataBytes]
  cases hv : i.value with
  | none =>
    rw [hv] at h
    simp [valueOfData, h]
  | unsigned v =>
    rw [hv] at h
    simp [valueOfData, h, Truncation.unsigned_ne_nil, Truncation.zeroExtend_unsigned]
  | signed v =>
    rw [hv] at h
    simp [valueOfData, h, ItemKind.hasData_of_isSigned h, Truncation.signExtend_signed]

theorem Readable.decode?_toBytes_append {i : ShortItem} (h : i.Readable) (rest : List UInt8) :
    decode? (i.toBytes ++ rest) = some (i, i.toBytes.length) := by
  have hcode : sizeCode i.dataBytes.length < 4 := by
    rw [sizeCode]
    omega
  rw [toBytes, List.cons_append, decode?, ItemKind.ofLeadByte?_leadByte _ hcode,
    ItemKind.leadByte_mod _ hcode, dataLength_sizeCode]
  simp [valueOfData_dataBytes h, Nat.add_comm]

/-- An item is read back from its bytes, and no byte of what follows is taken for its own. -/
theorem decode?_toBytes_append {i : ShortItem} (h : i.WellFormed) (rest : List UInt8) :
    decode? (i.toBytes ++ rest) = some (i, i.toBytes.length) :=
  h.readable.decode?_toBytes_append rest

theorem decodeAll_of_eq_none {bs : List UInt8} (h : decode? bs = none) : decodeAll bs = [] := by
  rw [decodeAll]
  split
  case h_1 => rfl
  case h_2 hsome =>
    rw [h] at hsome
    cases hsome

theorem decodeAll_of_eq_some {bs : List UInt8} {i : ShortItem} {n : Nat}
    (h : decode? bs = some (i, n)) : decodeAll bs = (i, n) :: decodeAll (bs.drop n) := by
  rw [decodeAll]
  split
  case h_1 hnone =>
    rw [h] at hnone
    cases hnone
  case h_2 hsome =>
    rw [h] at hsome
    cases hsome
    rfl

theorem decodeAll_nil : decodeAll [] = [] :=
  decodeAll_of_eq_none rfl

theorem decodeAll_append {bs rest : List UInt8} {i : ShortItem}
    (h : decode? (bs ++ rest) = some (i, bs.length)) :
    decodeAll (bs ++ rest) = (i, bs.length) :: decodeAll rest := by
  rw [decodeAll_of_eq_some h, List.drop_left]

/-- Reading items one after the other takes a list of items to its end. -/
theorem decodeAll_flatMap_toBytes {items : List ShortItem} (h : ∀ i ∈ items, i.Readable) :
    decodeAll (items.flatMap toBytes) = items.map fun i => (i, i.toBytes.length) := by
  induction items with
  | nil => exact decodeAll_nil
  | cons i items ih =>
    obtain ⟨hi, hitems⟩ := List.forall_mem_cons.1 h
    rw [List.flatMap_cons, decodeAll_append (hi.decode?_toBytes_append _), ih hitems, List.map_cons]

theorem total_lengths (items : List ShortItem) :
    total Prod.snd (items.map fun i => (i, i.toBytes.length)) = (items.flatMap toBytes).length := by
  induction items with
  | nil => rfl
  | cons i items ih =>
    rw [List.map_cons, total_cons, ih, List.flatMap_cons, List.length_append]

theorem map_fst_lengths (items : List ShortItem) :
    (items.map fun i => (i, i.toBytes.length)).map Prod.fst = items := by
  rw [List.map_map]
  exact List.map_id items

end ShortItem

end ReportDescriptor
