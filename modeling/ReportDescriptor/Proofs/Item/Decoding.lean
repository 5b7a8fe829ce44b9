import ReportDescriptor.Proofs.Item.Truncation

/-!
# Reading any bytes

An item is read from a string of bytes exactly if the first one names a kind and as many bytes
follow as it says. Written anew the item may take fewer bytes, and one more only where there were
no data at all, but it is read as the same item; so reading and writing once brings any string of
items into a form that both leave as it is.
-/

namespace ReportDescriptor

namespace Truncation

open LittleEndian

/-- Data that was read is written in no more bytes, except that no data becomes one byte. -/
theorem length_unsigned_zeroExtend_le {bs : List UInt8} (h : bs = [] ∨ Expressible bs.length) :
    (unsigned (zeroExtend bs)).length ≤ max 1 bs.length := by
  rcases h with rfl | h
  · decide
  · have hfour : ofBytes bs < 4294967296 := by
      have hbound := ofBytes_lt bs
      rcases h with h | h | h <;> rw [h] at hbound <;> omega
    have hvalue : (zeroExtend bs).toNat = ofBytes bs := UInt32.toNat_ofNat_of_lt' hfour
    have hle := (shortest_unsigned _).least bs h ((zeroFilled_eq_iff h.le_four).2 hvalue.symm)
    exact hle.trans (Nat.le_max_right _ _)

theorem length_signed_signExtend_le {bs : List UInt8} (h : bs = [] ∨ Expressible bs.length) :
    (signed (signExtend bs)).length ≤ max 1 bs.length := by
  rcases h with rfl | h
  · decide
  · have hvalue : (signExtend bs).toInt = ofSignedBytes bs := by
      obtain ⟨w, hw, hge, hlt⟩ := ofSignedBytes_bounds h.ne_nil
      rw [hw] at h
      apply Int32.toInt_ofInt_of_le
      · rcases h with h | h | h <;> obtain rfl := Nat.succ.inj h <;> omega
      · rcases h with h | h | h <;> obtain rfl := Nat.succ.inj h <;> omega
    have hle := (shortest_signed _).least bs h
      ((signFilled_eq_iff h.le_four h.ne_nil).2 hvalue.symm)
    exact hle.trans (Nat.le_max_right _ _)

end Truncation

namespace ItemKind

theorem leadByte_of_fields {b : UInt8} {k : ItemKind}
    (hcategory : k.category.code = b.toNat / 4 % 4) (htag : k.tag = b.toNat / 16) :
    k.leadByte (b.toNat % 4) = b := by
  apply UInt8.toNat.inj
  have hb := b.toNat_lt
  rw [leadByte, UInt8.toNat_ofNat']
  omega

/-- Category and tag belong to one kind at most. -/
theorem ofLeadByte?_eq_some_iff {b : UInt8} {k : ItemKind} :
    ofLeadByte? b = some k ↔ k.category.code = b.toNat / 4 % 4 ∧ k.tag = b.toNat / 16 := by
  constructor
  · intro h
    have hfields := List.find?_some h
    simpa using hfields
  · rintro ⟨hcategory, htag⟩
    have hread := ofLeadByte?_leadByte k (Nat.mod_lt b.toNat (by decide : 0 < 4))
    rwa [leadByte_of_fields hcategory htag] at hread

end ItemKind

namespace ShortItem

variable {bs rest left : List UInt8} {b : UInt8} {k : ItemKind} {i : ShortItem} {n w : Nat}

/-- The first byte names a kind, and the bytes that it says are there. -/
structure Opens (b : UInt8) (rest : List UInt8) (k : ItemKind) (w : Nat) : Prop where
  category_eq : k.category.code = b.toNat / 4 % 4
  tag_eq : k.tag = b.toNat / 16
  size_eq : [0, 1, 2, 4][b.toNat % 4]? = some w
  le_length : w ≤ rest.length

theorem getElem?_sizeCode {c : Nat} (h : c < 4) : [0, 1, 2, 4][c]? = some (dataLength c) := by
  match c, h with
  | 0, _ => rfl
  | 1, _ => rfl
  | 2, _ => rfl
  | 3, _ => rfl

theorem Opens.eq_dataLength (h : Opens b rest k w) : w = dataLength (b.toNat % 4) := by
  have hsize := h.size_eq
  rw [getElem?_sizeCode (Nat.mod_lt _ (by decide))] at hsize
  exact (Option.some.inj hsize).symm

theorem Opens.length_take (h : Opens b rest k w) : (rest.take w).length = w := by
  rw [List.length_take]
  exact Nat.min_eq_left h.le_length

theorem Opens.eq_nil_or_expressible (h : Opens b rest k w) :
    rest.take w = [] ∨ Truncation.Expressible (rest.take w).length := by
  have hcode := Nat.mod_lt b.toNat (by decide : 0 < 4)
  rw [← List.length_eq_zero_iff, h.length_take, h.eq_dataLength, dataLength, Truncation.Expressible]
  split <;> omega

theorem decode?_eq_some_iff :
    decode? bs = some (i, n) ↔ ∃ b rest w, bs = b :: rest ∧ Opens b rest i.kind w ∧
      i.value = valueOfData i.kind (rest.take w) ∧ n = 1 + w := by
  constructor
  · intro h
    cases bs with
    | nil => cases h
    | cons b rest =>
      simp only [decode?, Option.bind_eq_bind, Option.bind_eq_some_iff] at h
      obtain ⟨k, hk, h⟩ := h
      obtain ⟨hcategory, htag⟩ := ItemKind.ofLeadByte?_eq_some_iff.1 hk
      split at h
      case isTrue hlength =>
        cases h
        rw [List.length_take] at hlength
        exact ⟨b, rest, _, rfl, ⟨hcategory, htag, getElem?_sizeCode (Nat.mod_lt _ (by decide)),
          by omega⟩, rfl, rfl⟩
      case isFalse hlength => cases h
  · rintro ⟨b, rest, w, rfl, hopens, hvalue, rfl⟩
    have hkind := ItemKind.ofLeadByte?_eq_some_iff.2 ⟨hopens.category_eq, hopens.tag_eq⟩
    simp only [decode?, hkind, ← hopens.eq_dataLength, Option.bind_eq_bind, Option.bind_some,
      if_pos hopens.length_take, ← hvalue]

/-- Only what the first byte asks for is looked at. -/
theorem isSome_decode?_iff :
    (decode? bs).isSome = true ↔ ∃ b rest k w, bs = b :: rest ∧ Opens b rest k w := by
  rw [Option.isSome_iff_exists]
  constructor
  · rintro ⟨⟨i, n⟩, h⟩
    obtain ⟨b, rest, w, hbs, hopens, -⟩ := decode?_eq_some_iff.1 h
    exact ⟨b, rest, i.kind, w, hbs, hopens⟩
  · rintro ⟨b, rest, k, w, hbs, hopens⟩
    exact ⟨(⟨k, valueOfData k (rest.take w)⟩, 1 + w),
      decode?_eq_some_iff.2 ⟨b, rest, w, hbs, hopens, rfl, rfl⟩⟩

/-- What the data is read as. -/
theorem valueOfData_cases (k : ItemKind) (data : List UInt8) :
    (k.hasData = false ∧ valueOfData k data = .none) ∨
    (k.isSigned = true ∧ valueOfData k data = .signed (Truncation.signExtend data)) ∨
    (k.isSigned = false ∧ valueOfData k data = .unsigned (Truncation.zeroExtend data)) := by
  rw [valueOfData]
  split
  case isTrue hbare =>
    rw [Bool.and_eq_true_iff, Bool.not_eq_eq_eq_not] at hbare
    exact .inl ⟨hbare.2, rfl⟩
  case isFalse =>
    split
    case isTrue hsigned => exact .inr (.inl ⟨hsigned, rfl⟩)
    case isFalse hsigned => exact .inr (.inr ⟨Bool.eq_false_iff.2 hsigned, rfl⟩)

theorem readable_of_decode? (h : decode? bs = some (i, n)) : i.Readable := by
  obtain ⟨b, rest, w, -, -, hvalue, -⟩ := decode?_eq_some_iff.1 h
  have hcases := valueOfData_cases i.kind (rest.take w)
  rw [← hvalue] at hcases
  rw [Readable]
  rcases hcases with ⟨hkind, hread⟩ | ⟨hkind, hread⟩ | ⟨hkind, hread⟩
  all_goals rw [hread]; exact hkind

theorem length_dataBytes_le (h : Opens b rest k w)
    (hvalue : i.value = valueOfData k (rest.take w)) : i.dataBytes.length ≤ max 1 w := by
  have hsigned := Truncation.length_signed_signExtend_le h.eq_nil_or_expressible
  have hunsigned := Truncation.length_unsigned_zeroExtend_le h.eq_nil_or_expressible
  rw [h.length_take] at hsigned hunsigned
  rw [dataBytes, hvalue]
  rcases valueOfData_cases k (rest.take w) with ⟨-, hread⟩ | ⟨-, hread⟩ | ⟨-, hread⟩
  · rw [hread]
    exact Nat.zero_le _
  · rw [hread]
    exact hsigned
  · rw [hread]
    exact hunsigned

/-- What was read from `n` bytes can be written and read again, and takes hardly more bytes. -/
structure Rewritable (i : ShortItem) (n : Nat) : Prop where
  dataBytes_length : i.dataBytes.length ∈ [0, 1, 2, 4]
  decode?_toBytes : ∀ rest, decode? (i.toBytes ++ rest) = some (i, i.toBytes.length)
  length_toBytes_le : i.toBytes.length ≤ max 2 n

theorem rewritable_of_decode? (h : decode? bs = some (i, n)) : i.Rewritable n := by
  refine ⟨?_, (readable_of_decode? h).decode?_toBytes_append, ?_⟩
  · rcases i.length_dataBytes with hlength | hlength | hlength | hlength <;> simp [hlength]
  · obtain ⟨b, rest, w, -, hopens, hvalue, rfl⟩ := decode?_eq_some_iff.1 h
    have hdata := length_dataBytes_le hopens hvalue
    rw [toBytes, List.length_cons]
    omega

/-- Reading one item after the other, up to where none can be read. -/
inductive Decodes : List UInt8 → List (ShortItem × Nat) → List UInt8 → Prop
  | stop {left : List UInt8} (h : decode? left = none) : Decodes left [] left
  | next {bs left : List UInt8} {i : ShortItem} {n : Nat} {items : List (ShortItem × Nat)}
      (h : decode? bs = some (i, n)) (hrest : Decodes (bs.drop n) items left) :
      Decodes bs ((i, n) :: items) left

theorem exists_decodes_decodeAll (bs : List UInt8) : ∃ left, Decodes bs (decodeAll bs) left := by
  fun_induction decodeAll bs with
  | case1 bs h => exact ⟨bs, .stop h⟩
  | case2 bs i n h ih =>
    obtain ⟨left, hrest⟩ := ih
    exact ⟨left, .next h hrest⟩

namespace Decodes

variable {items : List (ShortItem × Nat)}

theorem eq_decodeAll (h : Decodes bs items left) : items = decodeAll bs := by
  induction h with
  | stop h => rw [decodeAll_of_eq_none h]
  | next h hrest ih => rw [decodeAll_of_eq_some h, ih]

theorem decode?_left (h : Decodes bs items left) : decode? left = none := by
  induction h with
  | stop h => exact h
  | next h hrest ih => exact ih

/-- No byte is read twice, and none is passed over. -/
theorem total_add_length (h : Decodes bs items left) :
    total Prod.snd items + left.length = bs.length := by
  induction h with
  | stop h => rw [total_nil, Nat.zero_add]
  | @next bs left i n items h hrest ih =>
    have hn := length_of_decode? h
    rw [List.length_drop] at ih
    rw [total_cons]
    omega

end Decodes

theorem forall_mem_decodeAll (bs : List UInt8) : ∀ p ∈ decodeAll bs, ∃ cs, decode? cs = some p := by
  fun_induction decodeAll bs with
  | case1 bs h => exact List.forall_mem_nil _
  | case2 bs i n h ih => exact List.forall_mem_cons.2 ⟨⟨bs, h⟩, ih⟩

/-- What was read is read again from what it is written as. -/
theorem decodeAll_toBytes_decodeAll (bs : List UInt8) :
    decodeAll ((decodeAll bs).flatMap fun p => p.1.toBytes) =
      (decodeAll bs).map fun p => (p.1, p.1.toBytes.length) := by
  have hreadable : ∀ i ∈ (decodeAll bs).map Prod.fst, i.Readable := by
    intro i hi
    obtain ⟨p, hp, rfl⟩ := List.mem_map.1 hi
    obtain ⟨cs, hcs⟩ := forall_mem_decodeAll bs p hp
    exact readable_of_decode? hcs
  have hread := decodeAll_flatMap_toBytes hreadable
  rwa [List.flatMap_map, List.map_map] at hread

/-- An item is read exactly from the strings that open one, and takes as many bytes as the first
says; reading on takes the string apart up to where no item can be read. Each item that was read,
and all of them together, are read again from what they are written as. -/
theorem decode_normalises (bs : List UInt8) :
    ((decode? bs).isSome = true ↔ ∃ b rest k w, bs = b :: rest ∧ Opens b rest k w) ∧
    (∀ i n, decode? bs = some (i, n) →
      (∃ b rest w, bs = b :: rest ∧ Opens b rest i.kind w ∧ n = 1 + w) ∧ n ≤ bs.length ∧
      i.Rewritable n) ∧
    (∃ left, Decodes bs (decodeAll bs) left ∧ decode? left = none ∧
      total Prod.snd (decodeAll bs) + left.length = bs.length) ∧
    (∀ items left, Decodes bs items left → items = decodeAll bs) ∧
    (∀ p ∈ decodeAll bs, p.1.Rewritable p.2) ∧
    decodeAll ((decodeAll bs).flatMap fun p => p.1.toBytes) =
      (decodeAll bs).map fun p => (p.1, p.1.toBytes.length) := by
  obtain ⟨left, hdecodes⟩ := exists_decodes_decodeAll bs
  refine ⟨isSome_decode?_iff, ?_, ⟨left, hdecodes, hdecodes.decode?_left,
    hdecodes.total_add_length⟩, fun items left h => h.eq_decodeAll, ?_,
    decodeAll_toBytes_decodeAll bs⟩
  · intro i n h
    obtain ⟨b, rest, w, hbs, hopens, -, hn⟩ := decode?_eq_some_iff.1 h
    exact ⟨⟨b, rest, w, hbs, hopens, hn⟩, (length_of_decode? h).2, rewritable_of_decode? h⟩
  · intro p hp
    obtain ⟨cs, hcs⟩ := forall_mem_decodeAll bs p hp
    exact rewritable_of_decode? hcs

/-- Data on the end of a collection, in more bytes than it needs: none of that is lost. -/
theorem decode_normalises_endCollection :
    decode? [0xc3, 0x05, 0x00, 0x00, 0x00, 0xc0] = some (⟨.endCollection, .unsigned 5⟩, 5) ∧
      decode? [0xc1, 0x05] = some (⟨.endCollection, .unsigned 5⟩, 2) := by
  have hread : decode? [0xc3, 0x05, 0x00, 0x00, 0x00, 0xc0] =
      some (⟨.endCollection, .unsigned 5⟩, 5) := by decide
  obtain ⟨-, hitem, -⟩ := decode_normalises [0xc3, 0x05, 0x00, 0x00, 0x00, 0xc0]
  exact ⟨hread, (hitem _ _ hread).2.2.decode?_toBytes []⟩

end ShortItem

end ReportDescriptor
