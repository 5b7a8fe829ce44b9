import ReportDescriptor.Descriptor.Output
import ReportDescriptor.Proofs.Emission.Items
import ReportDescriptor.Proofs.Item.Codec
import ReportDescriptor.Proofs.Sample

/-!
# Descriptors are read back from bytes

All items of a descriptor carry the sort of number that their kind calls for, under any options.
So nothing of them is lost in the bytes, and the bytes of a descriptor tell its items.
-/

namespace ReportDescriptor

namespace Descriptor

open Emission

variable {d d' : Descriptor} {o o' : Options} {items items' : List ShortItem}

theorem written_items (h : (d.items o).result = .ok items) : ∀ i ∈ items, Written d.reports i := by
  rw [result_items] at h
  have hall := written_itemsOf (written_applicationsEvents o.optimize d)
  cases helide : o.elide with
  | false =>
    rw [helide] at h
    obtain rfl := Except.ok.inj h
    exact hall
  | true =>
    rw [helide] at h
    obtain rfl := Except.ok.inj h
    exact fun i hi => hall i ((GlobalState.sublist_dropRedundant _ _).subset hi)

theorem wellFormed_items (h : (d.items o).result = .ok items) : ∀ i ∈ items, i.WellFormed :=
  fun i hi => (written_items h i hi).wellFormed

theorem result_toBytes (h : (d.items o).result = .ok items) :
    (d.toBytes o).result = .ok (items.flatMap ShortItem.toBytes) := by
  have hitems : d.items o = ⟨(d.items o).records, .ok items⟩ := by
    rw [← h]
  rw [toBytes, hitems]
  rfl

theorem decodeAll_of_items (h : (d.items o).result = .ok items) :
    ShortItem.decodeAll (items.flatMap ShortItem.toBytes) =
      items.map fun i => (i, i.toBytes.length) :=
  ShortItem.decodeAll_flatMap_toBytes fun i hi => (wellFormed_items h i hi).readable

theorem eq_of_flatMap_toBytes_eq (h : (d.items o).result = .ok items)
    (h' : (d'.items o').result = .ok items')
    (heq : items.flatMap ShortItem.toBytes = items'.flatMap ShortItem.toBytes) :
    items = items' := by
  have hread := decodeAll_of_items h
  rw [heq, decodeAll_of_items h'] at hread
  have hfst := congrArg (List.map Prod.fst) hread
  rw [ShortItem.map_fst_lengths, ShortItem.map_fst_lengths] at hfst
  exact hfst.symm

/-- Bytes lose nothing: neither of a single item, whatever follows it, nor of the items of a
descriptor. -/
theorem decodeAll_toBytes :
    (∀ i : ShortItem, i.WellFormed → ∀ rest : List UInt8,
      ShortItem.decode? (i.toBytes ++ rest) = some (i, i.toBytes.length)) ∧
    (∀ (d : Descriptor) (o : Options), ∃ items bytes,
      (d.items o).result = .ok items ∧ (d.toBytes o).result = .ok bytes ∧
      (∀ i ∈ items, i.WellFormed) ∧
      ShortItem.decodeAll bytes = items.map (fun i => (i, i.toBytes.length)) ∧
      total Prod.snd (ShortItem.decodeAll bytes) = bytes.length) ∧
    ∀ (d d' : Descriptor) (o o' : Options), (d.toBytes o).result = (d'.toBytes o').result →
      (d.items o).result = (d'.items o').result := by
  refine ⟨fun i hi rest => ShortItem.decode?_toBytes_append hi rest, ?_, ?_⟩
  · intro d o
    have hitems := d.result_items o
    refine ⟨_, _, hitems, result_toBytes hitems, wellFormed_items hitems,
      decodeAll_of_items hitems, ?_⟩
    rw [decodeAll_of_items hitems, ShortItem.total_lengths]
  · intro d d' o o' h
    have hitems := d.result_items o
    have hitems' := d'.result_items o'
    rw [result_toBytes hitems, result_toBytes hitems'] at h
    rw [hitems, hitems', eq_of_flatMap_toBytes_eq hitems hitems' (Except.ok.inj h)]

theorem decodeAll_toBytes_sample :
    (ShortItem.signed .logicalMinimum (-129)).WellFormed ∧
      ShortItem.decode? ((ShortItem.signed .logicalMinimum (-129)).toBytes ++ [0x26, 0xff]) =
        some (ShortItem.signed .logicalMinimum (-129), 3) ∧
      ((Sample.lone {}).toBytes ⟨.tight, true, false⟩).result =
        ((Sample.lone { modification := some .standard }).toBytes {}).result ∧
      ((Sample.lone {}).items ⟨.tight, true, false⟩).result =
        ((Sample.lone { modification := some .standard }).items {}).result :=
  have hwell : (ShortItem.signed .logicalMinimum (-129)).WellFormed := by decide
  have hbytes : ((Sample.lone {}).toBytes ⟨.tight, true, false⟩).result =
      ((Sample.lone { modification := some .standard }).toBytes {}).result := rfl
  ⟨hwell, decodeAll_toBytes.1 _ hwell _, hbytes, decodeAll_toBytes.2.2 _ _ _ _ hbytes⟩

end Descriptor

end ReportDescriptor
