import ReportDescriptor.Proofs.Reading.Descriptor
import ReportDescriptor.Proofs.Sample

/-!
# Options and reading

Options change the items of a descriptor but not what they are read as. For elision this holds of
any list of items, since an item that tells a reader nothing new leaves it as it is.
-/

namespace ReportDescriptor

namespace Reader

variable {s s' : Reader} {i : ShortItem}

theorem globals_of_main? (h : s.main? i = some s') : s'.globals = s.globals := by
  rw [main?] at h
  cases hr : i.kind.report? with
  | some r =>
    rw [hr] at h
    simp only [field?] at h
    split at h
    · rw [← Option.some.inj h]
    · cases h
  | none =>
    rw [hr] at h
    by_cases hopen : i.kind = .collection
    · simp only [if_pos hopen, openCollection?] at h
      split at h
      · obtain ⟨type, -, rfl⟩ := Option.map_eq_some_iff.1 h
        rfl
      · cases h
    · simp only [if_neg hopen, closeCollection?] at h
      split at h
      · rw [← Option.some.inj h]
      · cases h

/-- Only global items change the globals. -/
theorem globals_of_step? (h : s.step? i = some s') : s'.globals = s.globals.after i := by
  cases hi : i.kind.category with
  | mainItem =>
    rw [step?_mainItem hi] at h
    rw [globals_of_main? h, Globals.after_of_ne_globalItem _ (by simp [hi])]
  | globalItem =>
    rw [step?_globalItem hi] at h
    rw [← Option.some.inj h]
  | localItem =>
    rw [step?_localItem hi] at h
    rw [← Option.some.inj h, Globals.after_of_ne_globalItem _ (by simp [hi])]

theorem step?_of_isRedundant {t : GlobalState} (hs : s.globals = t.current.get?)
    (h : t.isRedundant i = true) : s.step? i = some s := by
  obtain ⟨hi, -, -, hget⟩ := GlobalState.isRedundant_iff.1 h
  rw [step?_globalItem hi, Globals.after_of_eq_some (by rw [hs, hget])]

/-- While the table holds the globals of the reader, elision does not change what is read. -/
theorem run?_dropRedundant {t : GlobalState} (hs : s.globals = t.current.get?)
    {is : List ShortItem} (his : Stackless is) : s.run? (t.dropRedundant is) = s.run? is := by
  induction is generalizing s t with
  | nil => rfl
  | cons i is ih =>
    obtain ⟨hi, hrest⟩ := List.forall_mem_cons.1 his
    rw [GlobalState.dropRedundant, run?_cons]
    by_cases hred : t.isRedundant i = true
    · rw [if_pos hred, step?_of_isRedundant hs hred, Option.bind_some, ih hs hrest]
    · rw [if_neg hred, run?_cons]
      cases hstep : s.step? i with
      | none => rfl
      | some s' =>
        have hs' : s'.globals = (t.after i).current.get? := by
          rw [globals_of_step? hstep, hs, GlobalState.get?_after hi.1 hi.2]
        rw [Option.bind_some, Option.bind_some, ih hs' hrest]

theorem read?_dropRedundant {is : List ShortItem} (his : Stackless is) :
    read? (GlobalState.dropRedundant {} is) = read? is := by
  have hempty : (Reader.globals {}) = (GlobalTable.get? {}) := by
    funext k
    rfl
  rw [read?, read?, run?_dropRedundant hempty his]

end Reader

namespace Descriptor

open Emission

variable (d : Descriptor)

/-- Under any options the items can be read. -/
theorem read?_items (o : Options)
    (h : o.optimize = true → ∀ b ∈ d.blocks, b.length < UInt32.size) :
    ∃ items, (d.items o).result = .ok items ∧ Reader.read? items = some d.reading := by
  have hread := read?_itemsOf d o.optimize h
  refine ⟨_, d.result_items o, ?_⟩
  cases o.elide with
  | false => exact hread
  | true => exact (Reader.read?_dropRedundant (stackless_itemsOf d o.optimize)).trans hread

/-- Fields that share a main item are read as if each had its own. A main item states the number
of its values in a word, so there must not be more fields that share one than a word can count. -/
theorem read?_items_optimize (packing : Packing) (elide : Bool)
    (h : ∀ b ∈ d.blocks, b.length < UInt32.size) :
    ∃ combined separate, (d.items ⟨packing, true, elide⟩).result = .ok combined ∧
      (d.items ⟨packing, false, elide⟩).result = .ok separate ∧
      Reader.read? combined = some d.reading ∧ Reader.read? separate = some d.reading := by
  obtain ⟨combined, hcombined, hreadCombined⟩ := d.read?_items ⟨packing, true, elide⟩ fun _ => h
  obtain ⟨separate, hseparate, hreadSeparate⟩ := d.read?_items ⟨packing, false, elide⟩ fun _ => h
  exact ⟨combined, separate, hcombined, hseparate, hreadCombined, hreadSeparate⟩

theorem read?_items_optimize_sample :
    (∀ b ∈ Sample.device.blocks, b.length < UInt32.size) ∧
      ∃ combined separate,
        (Sample.device.items ⟨.tight, true, true⟩).result = .ok combined ∧
        (Sample.device.items ⟨.tight, false, true⟩).result = .ok separate ∧
        Reader.read? combined = some Sample.device.reading ∧
        Reader.read? separate = some Sample.device.reading :=
  have hblocks : ∀ b ∈ Sample.device.blocks, b.length < UInt32.size := by decide
  ⟨hblocks, Sample.device.read?_items_optimize .tight true hblocks⟩

end Descriptor

end ReportDescriptor
