import ReportDescriptor.Proofs.Emission.Bytes
import ReportDescriptor.Proofs.Emission.Combination
import ReportDescriptor.Proofs.Layout.Stability
import ReportDescriptor.Proofs.Reading.Descriptor

/-!
# Limits of written values

Sizes and ids of reports keep to their limits under any options. Counts do as long as fields have
their own main items. With optimization the count of a block is the number of its fields, which no
constructor bounds, so it exceeds the limit exactly where so many fields can share a main item.
-/

namespace ReportDescriptor

/-- The item carries an unsigned number from `lo` to `hi`. -/
def ShortItem.Within (lo hi : Nat) (i : ShortItem) : Prop :=
  ∃ v, i.value = .unsigned v ∧ lo ≤ v.toNat ∧ v.toNat ≤ hi

theorem ShortItem.within_ofNat (k : ItemKind) {lo hi n : Nat} (hlo : lo ≤ n) (hhi : n ≤ hi)
    (hn : n < 4294967296) : (ofNat k n).Within lo hi := by
  have hvalue : (UInt32.ofNat n).toNat = n := UInt32.toNat_ofNat_of_lt' hn
  exact ⟨_, rfl, hvalue.symm ▸ hlo, hvalue.symm ▸ hhi⟩

theorem ShortItem.le_of_within_ofNat {k : ItemKind} {lo hi n : Nat}
    (h : (ofNat k n).Within lo hi) (hn : n < 4294967296) : n ≤ hi := by
  obtain ⟨v, hv, -, hhi⟩ := h
  have hvalue : (UInt32.ofNat n).toNat = n := UInt32.toNat_ofNat_of_lt' hn
  rwa [← ItemValue.unsigned.inj hv, hvalue] at hhi

namespace Written

variable {rs : List Report} {i : ShortItem}

theorem size_within (h : Written rs i) (hi : i.kind = .reportSize) : i.Within 1 32 := by
  cases h with
  | size s =>
    have hle := s.adjusted_le
    have hge := Nat.le_trans s.requested.one_le s.requested_le_adjusted
    exact ShortItem.within_ofNat _ hge hle (by omega)
  | id h => cases hi
  | signed h v =>
    obtain rfl : _ = ItemKind.reportSize := hi
    cases h
  | unsigned h hne v => exact absurd hi hne.1
  | endCollection => cases hi

theorem id_within (h : Written rs i) (hrs : ∀ r ∈ rs, r.id ≠ 0) (hi : i.kind = .reportId) :
    i.Within 1 255 := by
  cases h with
  | size s => cases hi
  | @id r hr =>
    have hlt := r.id.toNat_lt
    have hne : r.id.toNat ≠ 0 := fun h => hrs r hr (UInt8.toNat.inj h)
    exact ShortItem.within_ofNat _ (by omega) (by omega) (by omega)
  | signed h v =>
    obtain rfl : _ = ItemKind.reportId := hi
    cases h
  | unsigned h hne v => exact absurd hi hne.2
  | endCollection => cases hi

end Written

namespace GlobalState

/-- An item that says something new is kept, or one like it before it. -/
theorem mem_dropRedundant {t : GlobalState} {i : ShortItem} {is : List ShortItem}
    (his : Stackless is) (hi : i ∈ is) (ht : t.current.get? i.kind ≠ some i.value) :
    i ∈ t.dropRedundant is := by
  fun_induction dropRedundant t is with
  | case1 t => cases hi
  | case2 t j is hred ih =>
    rw [Stackless, List.forall_mem_cons] at his
    rcases List.mem_cons.1 hi with rfl | hi
    · exact absurd (isRedundant_iff.1 hred).2.2.2 ht
    · exact ih his.2 hi ht
  | case3 t j is hred ih =>
    rw [Stackless, List.forall_mem_cons] at his
    by_cases hij : i = j
    · exact hij ▸ List.mem_cons_self
    · refine List.mem_cons_of_mem j (ih his.2 (List.mem_of_ne_of_mem hij hi) fun hafter => ?_)
      rw [get?_after his.1.1 his.1.2] at hafter
      by_cases hj : j.kind.category = .globalItem
      · rw [Globals.after_of_globalItem hj] at hafter
        split at hafter
        case isTrue hkind => exact hij (congrArg₂ ShortItem.mk hkind (Option.some.inj hafter).symm)
        case isFalse => exact ht hafter
      · rw [Globals.after_of_ne_globalItem _ hj] at hafter
        exact ht hafter

theorem mem_dropRedundant_empty {i : ShortItem} {is : List ShortItem} (his : Stackless is) :
    i ∈ dropRedundant {} is ↔ i ∈ is :=
  ⟨fun hi => (sublist_dropRedundant {} is).subset hi,
    fun hi => mem_dropRedundant his hi (Option.some_ne_none _).symm⟩

end GlobalState

theorem Report.length_leaves_le_bits (r : Report) : r.leaves.length ≤ r.bits := by
  have hlist : ∀ ls : List Leaf, ls.length ≤ total Leaf.bits ls := by
    intro ls
    induction ls with
    | nil => exact Nat.le_refl 0
    | cons l ls ih =>
      have hl := l.one_le_bits
      rw [List.length_cons, total_cons]
      omega
  exact hlist r.leaves

namespace Descriptor

open Emission

variable {d : Descriptor} {o : Options} {items : List ShortItem}

/-- Elision leaves out repetitions only. -/
theorem mem_items (h : (d.items o).result = .ok items) (i : ShortItem) :
    i ∈ items ↔ i ∈ itemsOf (d.applications.flatMap (applicationEvents o.optimize)) := by
  rw [result_items] at h
  obtain rfl := Except.ok.inj h
  cases o.elide with
  | false => exact Iff.rfl
  | true => exact GlobalState.mem_dropRedundant_empty (stackless_itemsOf d o.optimize)

/-- A block has as many fields as its report at most, and those are no more than its bits. -/
theorem length_lt_of_mem_blocks (hbits : ∀ r ∈ d.reports, r.bits < 4294967296) :
    ∀ b ∈ d.blocks, b.length < 4294967296 := by
  intro b hb
  obtain ⟨r, hr, hb⟩ := List.mem_flatMap.1 hb
  have hle := (List.sublist_flatten_of_mem hb).length_le
  rw [FieldForest.flatten_blocks] at hle
  exact Nat.lt_of_le_of_lt (Nat.le_trans hle r.length_leaves_le_bits) (hbits r hr)

theorem reportCount_within (h : (d.items o).result = .ok items)
    (hblocks : o.optimize = true → ∀ b ∈ d.blocks, b.length ≤ 65535) :
    ∀ i ∈ items, i.kind = .reportCount → i.Within 1 65535 := by
  have hcombines := combines_applications d
  have hcount : ∀ n : FieldCount, (ShortItem.ofNat .reportCount n.value).Within 1 65535 :=
    fun n => ShortItem.within_ofNat _ n.one_le n.le_max (by have hle := n.le_max; omega)
  intro i hi hkind
  rw [mem_items h] at hi
  have hmem := mem_countItems.2 ⟨hi, hkind⟩
  cases hoptimize : o.optimize with
  | false =>
    rw [hoptimize, hcombines.countItems_eq.2] at hmem
    obtain ⟨l, -, rfl⟩ := List.mem_map.1 hmem
    exact hcount l.count
  | true =>
    rw [hoptimize, hcombines.countItems_eq.1] at hmem
    obtain ⟨b, hb, rfl⟩ := List.mem_map.1 hmem
    rcases hcombines.forall_block b hb with ⟨l, rfl⟩ | ⟨hlength, hones⟩
    · exact hcount l.count
    · have hle := hblocks hoptimize b hb
      rw [values_eq_length hones]
      exact ShortItem.within_ofNat _ (by omega) hle (by omega)

theorem length_le_of_reportCount_within (h : (d.items o).result = .ok items)
    (hbits : ∀ r ∈ d.reports, r.bits < 4294967296) (hoptimize : o.optimize = true)
    (hcounts : ∀ i ∈ items, i.kind = .reportCount → i.Within 1 65535) :
    ∀ b ∈ d.blocks, b.length ≤ 65535 := by
  have hcombines := combines_applications d
  intro b hb
  rcases hcombines.forall_block b hb with ⟨l, rfl⟩ | ⟨hlength, hones⟩
  · exact Nat.le_add_left 1 65534
  · have hmem : .ofNat .reportCount (values b) ∈
        countItems (itemsOf (d.applications.flatMap (applicationEvents o.optimize))) := by
      rw [hoptimize, hcombines.countItems_eq.1]
      exact List.mem_map_of_mem hb
    have hitem := (mem_items h _).2 (mem_countItems.1 hmem).1
    have hwithin := hcounts _ hitem rfl
    rw [values_eq_length hones] at hwithin
    exact ShortItem.le_of_within_ofNat hwithin (length_lt_of_mem_blocks hbits b hb)

/-- Under all options sizes and ids keep to their limits. Counts do unless more fields than the
limit share a main item. -/
theorem values_within {d : Descriptor} (hbuilt : ∀ r ∈ d.reports, r.Built) (o : Options) :
    ∃ items, (d.items o).result = .ok items ∧
      (∀ i ∈ items, i.kind = .reportSize → i.Within 1 32) ∧
      (∀ i ∈ items, i.kind = .reportId → i.Within 1 255) ∧
      ((o.optimize = true → ∀ b ∈ d.blocks, b.length ≤ 65535) →
        ∀ i ∈ items, i.kind = .reportCount → i.Within 1 65535) ∧
      ((∀ r ∈ d.reports, r.bits < 4294967296) →
        (∀ i ∈ items, i.kind = .reportCount → i.Within 1 65535) →
          o.optimize = true → ∀ b ∈ d.blocks, b.length ≤ 65535) := by
  have hitems := d.result_items o
  have hwritten := written_items hitems
  have hids : ∀ r ∈ d.reports, r.id ≠ 0 := by
    intro r hr
    obtain ⟨kind, id, children, hbuild⟩ := hbuilt r hr
    obtain ⟨hid, -, -, -, rfl⟩ := Report.build_eq_ok_iff.1 hbuild
    exact hid
  refine ⟨_, hitems, fun i hi => (hwritten i hi).size_within,
    fun i hi => (hwritten i hi).id_within hids, reportCount_within hitems, ?_⟩
  intro hbits hcounts hoptimize
  exact length_le_of_reportCount_within hitems hbits hoptimize hcounts

theorem values_within_sample :
    (∀ r ∈ Sample.device.reports, r.Built) ∧ ∃ items,
      (Sample.device.items ⟨.tight, true, true⟩).result = .ok items ∧
      (∀ i ∈ items, i.kind = .reportSize → i.Within 1 32) ∧
      (∀ i ∈ items, i.kind = .reportId → i.Within 1 255) ∧
      (∀ i ∈ items, i.kind = .reportCount → i.Within 1 65535) := by
  obtain ⟨items, hitems, hsizes, hids, hcounts, -⟩ :=
    values_within Sample.device_built ⟨.tight, true, true⟩
  exact ⟨Sample.device_built, items, hitems, hsizes, hids, hcounts fun _ => by decide⟩

end Descriptor

namespace Sample

open Layout

theorem leaves_crowd (n : Nat) : (crowd n).leaves = List.replicate n (.single byteAxis) := by
  rw [crowd, Forest.leaves_prepend, Forest.leaves_nil, List.append_nil, List.map_replicate]

theorem unspanned_crowd (n : Nat) : Unspanned 0 (crowd n).leaves := by
  have hall : ∀ offset, Unspanned offset (List.replicate n (.single byteAxis)) := by
    induction n with
    | zero => exact fun _ => trivial
    | succ n ih =>
      intro offset
      have hfirst : offset % 8 + 8 ≤ 32 := by omega
      exact ⟨overspans_one_eq_false_iff.2 hfirst, ih _⟩
  rw [leaves_crowd]
  exact hall 0

theorem bits_crowd (n : Nat) : (crowd n).bits = n * 8 := by
  rw [FieldForest.bits, leaves_crowd, total_replicate]
  rfl

theorem merge?_crowd (n : Nat) : merge? (crowd n) = none := by
  cases hmerge : merge? (crowd n) with
  | none => rfl
  | some step =>
    obtain ⟨pre, u, v, post, w, hleaves, -⟩ := leaves_of_merge? hmerge
    have hmem : .padding u ∈ (crowd n).leaves := by
      rw [hleaves]
      simp
    rw [leaves_crowd, List.mem_replicate] at hmem
    cases hmem.2

theorem layout_crowd (n : Nat) : (layout (crowd n)).2 = crowd n := by
  refine layout_of_settled (unspanned_crowd n) ?_ (merge?_crowd n)
  rw [bits_crowd]
  omega

theorem crowd_of_build {n : Nat} (h : n ≠ 0) :
    (Report.build .input 1 (crowd n)).result = .ok ⟨.input, 1, crowd n⟩ := by
  have hmem : ∀ l ∈ (crowd n).leaves, l = .single byteAxis := by
    rw [leaves_crowd]
    exact fun l hl => (List.mem_replicate.1 hl).2
  have hdata : (crowd n).isOnlyPadding = false := by
    refine FieldForest.isOnlyPadding_eq_false_iff.2 ⟨.single byteAxis, ?_, rfl⟩
    rw [leaves_crowd]
    exact List.mem_replicate.2 ⟨h, rfl⟩
  refine Report.build_eq_ok_iff.2 ⟨by decide,
    FieldForest.isEmpty_of_isOnlyPadding_eq_false hdata, ?_, ?_, ?_⟩
  · intro l hl k hk
    rw [hmem l hl] at hk
    exact (Option.some.inj hk).symm
  · rwa [layout_crowd]
  · rw [layout_crowd]

theorem blocks_crowd (n : Nat) :
    (crowdDevice (n + 1)).blocks = [List.replicate (n + 1) (.single byteAxis)] := by
  have hshare : (List.replicate (n + 1) byteAxis).Pairwise
      fun v w => v.combinableWith w = true :=
    List.pairwise_replicate.2 (.inr (by decide))
  have hblocks := FieldForest.blocks_prepend (f := .nil) hshare fun m hm =>
    absurd hm (Option.not_mem_none m)
  rw [← List.map_replicate]
  exact (List.append_nil _).trans hblocks

end Sample

namespace Descriptor

theorem exists_not_within_crowdDevice {n : Nat} (hn : 65535 ≤ n) (hbits : (n + 1) * 8 < 4294967296)
    {items : List ShortItem}
    (h : ((Sample.crowdDevice (n + 1)).items ⟨.tight, true, false⟩).result = .ok items) :
    ∃ i ∈ items, i.kind = .reportCount ∧ ¬i.Within 1 65535 := by
  by_contra! hwithin
  have hreports : ∀ r ∈ (Sample.crowdDevice (n + 1)).reports, r.bits < 4294967296 := by
    intro r hr
    obtain rfl : r = ⟨.input, 1, Sample.crowd (n + 1)⟩ := List.mem_singleton.1 hr
    rwa [Report.bits, Sample.bits_crowd]
  have hle := length_le_of_reportCount_within h hreports rfl hwithin
  rw [Sample.blocks_crowd, List.forall_mem_singleton, List.length_replicate] at hle
  omega

theorem exists_not_within :
    (Report.build .input 1 (Sample.crowd 65536)).result = .ok ⟨.input, 1, Sample.crowd 65536⟩ ∧
      Descriptor.build (Sample.crowdDevice 65536).applications = .ok (Sample.crowdDevice 65536) ∧
      ∃ items, ((Sample.crowdDevice 65536).items ⟨.tight, true, false⟩).result = .ok items ∧
        ∃ i ∈ items, i.kind = .reportCount ∧ ¬i.Within 1 65535 := by
  have hitems := (Sample.crowdDevice 65536).result_items ⟨.tight, true, false⟩
  exact ⟨Sample.crowd_of_build (by decide), rfl, _, hitems,
    exists_not_within_crowdDevice (Nat.le_refl 65535) (by decide) hitems⟩

end Descriptor

end ReportDescriptor
