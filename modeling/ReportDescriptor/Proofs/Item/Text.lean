import ReportDescriptor.Descriptor.Output
import ReportDescriptor.Proofs.Item.Codec
import ReportDescriptor.Proofs.Text

/-!
# Items as lines of text

The bytes of an item fit into fifteen columns of a line and are read back from there, and its text
does not break the line.
-/

namespace ReportDescriptor

namespace ShortItem

theorem length_toBytes_le_five (i : ShortItem) : i.toBytes.length ≤ 5 := by
  rw [toBytes, List.length_cons]
  rcases i.length_dataBytes with h | h
  · omega
  · exact Nat.succ_le_succ h.le_four

theorem length_intercalate_byte (bs : List UInt8) :
    (" ".intercalate (bs.map Hex.byte)).length = 3 * bs.length - 1 := by
  have hblank : " ".length = 1 := rfl
  induction bs with
  | nil => rfl
  | cons b bs ih =>
    cases bs with
    | nil => simp [Hex.length_byte]
    | cons b' bs =>
      rw [List.map_cons] at ih
      rw [List.map_cons, List.map_cons, String.intercalate_cons_cons, String.length_append,
        String.length_append, Hex.length_byte, hblank, ih]
      simp only [List.length_cons]
      omega

theorem length_byteColumn (i : ShortItem) : i.byteColumn.toList.length = 15 := by
  have hle := i.length_toBytes_le_five
  have hlength := length_intercalate_byte i.toBytes
  simp only [byteColumn, String.toList_append, String.toList_ofList, List.length_append,
    List.length_replicate, String.length_toList]
  omega

theorem filter_byteColumn (i : ShortItem) :
    i.byteColumn.toList.filter (· ≠ ' ') = Hex.pairs i.toBytes := by
  rw [byteColumn, String.toList_append, String.toList_ofList, List.filter_append,
    filter_ne_blank_intercalate (Hex.notMem_bytes (.inl rfl) _), List.flatMap_map]
  simp [Hex.pairs, Hex.byte]

/-! ## The text of an item -/

theorem newline_notMem_label (k : ItemKind) : '\n' ∉ k.label.toList := by
  cases k <;> simp [ItemKind.label]

theorem newline_notMem_number (width n : Nat) : '\n' ∉ (Hex.number width n).toList := by
  simpa [Hex.number] using Hex.notMem_digits (.inr rfl) width n

theorem newline_notMem_repr (n : Nat) : '\n' ∉ n.repr.toList := by
  rw [Nat.toList_repr]
  exact notMem_toDigits rfl n

theorem newline_notMem_toString (x : Int) : '\n' ∉ (toString x).toList := by
  cases x with
  | ofNat n => exact newline_notMem_repr n
  | negSucc n =>
    change '\n' ∉ ("-" ++ (n + 1).repr).toList
    rw [String.toList_append, List.mem_append, not_or]
    exact ⟨by simp, newline_notMem_repr _⟩

theorem newline_notMem_attributes (v : UInt32) (r : ReportKind) :
    '\n' ∉ (", ".intercalate (attributeNames v r)).toList := by
  refine notMem_intercalate (by simp) ?_
  rw [attributeNames, List.forall_mem_cons, List.forall_mem_cons, List.forall_mem_cons]
  refine ⟨?_, ?_, ?_, ?_⟩
  · split <;> simp
  · split <;> simp
  · split <;> simp
  · intro w hw
    obtain ⟨p, hp, rfl⟩ := List.mem_map.1 hw
    have hp := (List.mem_filter.1 hp).1
    revert p
    simp

theorem newline_notMem_collectionType (v : Nat) :
    '\n' ∉ (match CollectionType.ofCode? v with
      | some t => t.label
      | none => Hex.number 2 v).toList := by
  cases CollectionType.ofCode? v with
  | none => exact newline_notMem_number 2 v
  | some t => cases t <;> simp [CollectionType.label]

theorem newline_notMem_numberText (k : ItemKind) (v : UInt32) :
    '\n' ∉ (numberText k v).toList := by
  cases k with
  | input | output | feature => exact newline_notMem_attributes v _
  | collection => exact newline_notMem_collectionType v.toNat
  | usagePage | usage | usageMinimum | usageMaximum | unit => exact newline_notMem_number 4 _
  | unitExponent => exact newline_notMem_toString _
  | _ => exact newline_notMem_repr _

theorem newline_notMem_text (i : ShortItem) : '\n' ∉ i.text.toList := by
  have hlabel := newline_notMem_label i.kind
  have hparentheses {t : String} (ht : '\n' ∉ t.toList) :
      '\n' ∉ (i.kind.label ++ " (" ++ t ++ ")").toList := by
    simp [hlabel, ht]
  unfold text
  split
  · exact hlabel
  · exact hparentheses (newline_notMem_toString _)
  · exact hparentheses (newline_notMem_numberText _ _)

theorem newline_notMem_byteColumn (i : ShortItem) : '\n' ∉ i.byteColumn.toList := by
  rw [byteColumn, String.toList_append, List.mem_append, not_or]
  exact ⟨notMem_intercalate (by simp) (Hex.notMem_bytes (.inr rfl) _), by simp⟩

theorem toList_indent (depth : Nat) :
    (String.join (List.replicate depth "  ")).toList = List.replicate (2 * depth) ' ' := by
  induction depth with
  | zero => rfl
  | succ depth ih =>
    rw [List.replicate_succ, String.join_cons, String.toList_append, ih]
    rfl

theorem take_line (i : ShortItem) (depth : Nat) :
    ((i.line depth).toList.take 15).filter (· ≠ ' ') = Hex.pairs i.toBytes := by
  have htake : (i.line depth).toList.take 15 = i.byteColumn.toList := by
    simp only [line, String.toList_append, List.append_assoc]
    exact List.take_left' i.length_byteColumn
  rw [htake, filter_byteColumn]

theorem drop_line (i : ShortItem) (depth : Nat) :
    (i.line depth).toList.drop 15 =
      ' ' :: (List.replicate (2 * depth) ' ' ++ i.text.toList) := by
  simp only [line, String.toList_append, List.append_assoc, toList_indent]
  exact List.drop_left' i.length_byteColumn

theorem newline_notMem_line (i : ShortItem) (depth : Nat) : '\n' ∉ (i.line depth).toList := by
  simp only [line, String.toList_append, List.mem_append, not_or, toList_indent]
  exact ⟨⟨⟨newline_notMem_byteColumn i, by simp⟩, by simp⟩, newline_notMem_text i⟩

end ShortItem

end ReportDescriptor
