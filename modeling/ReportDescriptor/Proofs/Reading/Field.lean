import ReportDescriptor.Proofs.Emission.Items
import ReportDescriptor.Proofs.Reading.Tree

/-!
# Reading one field

A field states all globals that its meaning depends on, so its items are read in the same way
whatever is in force before them. All that padding states is its size and its count.
-/

namespace ReportDescriptor

theorem UInt16.ofNat_toNat_toUInt32 (n : UInt16) : (UInt32.ofNat n.toNat).toNat = n.toNat := by
  have h := n.toNat_lt
  rw [UInt32.toNat_ofNat']
  omega

namespace ShortItem

theorem length_dataBytes_ofNat (k : ItemKind) (n : UInt16) :
    (ofNat k n.toNat).dataBytes.length ≠ 4 := by
  have h := n.toNat_lt
  simp only [ofNat, unsigned, dataBytes, Truncation.length_unsigned, Truncation.unsignedLength,
    UInt16.ofNat_toNat_toUInt32]
  by_cases hshort : n.toNat < 256
  · rw [if_pos hshort]
    decide
  · rw [if_neg hshort, if_pos h]
    decide

/-- A usage that is written by its id is read on the page in force. -/
theorem usage?_ofNat (k : ItemKind) (page id : UInt16) :
    usage? (some page.toNat) (ofNat k id.toNat) = some ⟨page, id⟩ := by
  change (if (ofNat k id.toNat).dataBytes.length = 4 then some (Usage.ofValue _)
    else (some page.toNat).map _) = _
  rw [if_neg (length_dataBytes_ofNat k id), Option.map_some, UInt16.ofNat_toNat_toUInt32,
    UInt16.ofNat_toNat, UInt16.ofNat_toNat]

end ShortItem

namespace Globals

variable {g g' : Globals} {k : ItemKind}

theorem unsigned?_of_eq_ofNat {n : Nat}
    (h : g k = some (.unsigned (UInt32.ofNat n))) (hn : n < UInt32.size) :
    g.unsigned? k = some n := by
  rw [unsigned?, h]
  exact congrArg some (UInt32.toNat_ofNat_of_lt' hn)

theorem unsigned?_of_eq_toNat {n : UInt16}
    (h : g k = some (.unsigned (UInt32.ofNat n.toNat))) : g.unsigned? k = some n.toNat := by
  rw [unsigned?, h]
  exact congrArg some (UInt16.ofNat_toNat_toUInt32 n)

theorem unsigned?_congr (h : g k = g' k) :
    g.unsigned? k = g'.unsigned? k := by
  rw [unsigned?, unsigned?, h]

end Globals

/-- A main item makes its values under the globals and the local items before it. -/
theorem Reader.run?_field {s : Reader} (hlocals : s.locals = []) {is : List ShortItem}
    (his : ∀ i ∈ is, i.kind.category ≠ .mainItem) {size count : Nat}
    (hsize : (s.globals.afterAll is).unsigned? .reportSize = some size)
    (hcount : (s.globals.afterAll is).unsigned? .reportCount = some count)
    {t : Reader}
    (ht : t = { s with
      globals := s.globals.afterAll is
      locals := is.filter (·.kind.category = .localItem) })
    (r : ReportKind) (word : UInt32) :
    s.run? (is ++ [.main r word]) = some { t with
      locals := []
      read := s.read ++ .prepend ((List.range count).map (t.slot r word.toNat size)) .nil
      cursors := s.cursors.advance r t.reportId (count * size) } := by
  have hmain : (ItemKind.ofReport r).category = .mainItem := by cases r <;> rfl
  have hfield : t.field? r (.main r word) = some { t with
      locals := []
      read := s.read ++ .prepend ((List.range count).map (t.slot r word.toNat size)) .nil
      cursors := s.cursors.advance r t.reportId (count * size) } := by
    subst ht
    simp only [field?, ShortItem.main, ShortItem.unsigned, hsize, hcount]
  rw [run?_append, run?_of_forall_ne_mainItem his, Option.bind_some, hlocals, List.nil_append,
    run?_cons, step?_mainItem hmain, main?, ← ht]
  simp only [ShortItem.main, ShortItem.unsigned, ItemKind.report?_ofReport] at hfield ⊢
  rw [hfield, Option.bind_some, run?_nil]

namespace Emission

open Globals

theorem attributes_afterAll_globalItems (g : Globals) (f : DataField) (count : Nat) :
    (g.afterAll (globalItems f count)).attributes = f.attributes := by
  have hexponent : (g.afterAll (globalItems f count)).unsigned? .unitExponent =
      some (f.unitExponent.elim 0 Exponent.code) := by
    apply unsigned?_of_eq_ofNat rfl
    cases f.unitExponent with
    | none => exact Nat.zero_lt_succ _
    | some e => exact Nat.lt_trans e.code_lt (by decide)
  have hunit : (g.afterAll (globalItems f count)).unsigned? .unit =
      some (f.unit.elim 0 PhysicalUnit.word) := by
    apply unsigned?_of_eq_ofNat rfl
    cases f.unit with
    | none => exact Nat.zero_lt_succ _
    | some u => exact Nat.lt_trans u.word_lt (by decide)
  have hofCode : Exponent.ofCode (f.unitExponent.elim 0 Exponent.code) =
      f.unitExponent.getD .zero := by
    cases f.unitExponent with
    | none => rfl
    | some e => exact e.ofCode_code
  have hofWord : PhysicalUnit.ofWord? (f.unit.elim 0 PhysicalUnit.word) =
      some (f.unit.getD .none) := by
    cases f.unit with
    | none => exact PhysicalUnit.ofWord?_word .none
    | some u => exact u.ofWord?_word
  rw [attributes, hexponent, hunit, Option.map_some, Option.bind_some, hofCode, hofWord]
  rfl

theorem afterAll_globalItems_of_ne (g : Globals) (f : DataField) (count : Nat) {k : ItemKind}
    (h : k = .usagePage ∨ k = .reportId) : g.afterAll (globalItems f count) k = g k := by
  rcases h with rfl | rfl <;> rfl

/-- What the globals of a field make of a value of it. -/
def fieldSlot (r : ReportKind) (id start : Nat) (f : DataField) (g : Grouping)
    (usages : Nat → List Usage) (i : Nat) : Slot where
  report := r
  id := id
  offset := start + i * f.size.adjusted
  size := f.size.adjusted
  usages := usages i
  attributes := f.attributes
  grouping := g
  alternates := f.flags.alternates

/-- What is written before the globals of a field: usages, and the page they are on. -/
def IsUsageItem (i : ShortItem) : Prop :=
  i.kind = .usagePage ∨ i.kind.category = .localItem

theorem IsUsageItem.category_ne {i : ShortItem} (h : IsUsageItem i) :
    i.kind.category ≠ .mainItem := by
  rcases h with h | h
  · rw [h]
    exact ItemCategory.noConfusion
  · rw [h]
    exact ItemCategory.noConfusion

theorem IsUsageItem.kind_ne {i : ShortItem} (h : IsUsageItem i) {k : ItemKind}
    (hk : k.category ≠ .localItem) (hpage : k ≠ .usagePage) : i.kind ≠ k := by
  rintro rfl
  rcases h with h | h
  · exact hpage h
  · exact hk h

theorem category_of_mem_globalItems {f : DataField} {count : Nat} {i : ShortItem}
    (h : i ∈ globalItems f count) : i.kind.category = .globalItem := by
  simp only [globalItems, List.mem_cons, List.not_mem_nil, or_false] at h
  rcases h with rfl | rfl | rfl | rfl | rfl | rfl | rfl | rfl <;> rfl

/-- The usages of a kind are declared by the local items alone. -/
theorem usagesOf_append_globalItems (page : Option Nat) {k : ItemKind}
    (hk : k.category = .localItem) (us : List ShortItem) (f : DataField) (count : Nat) :
    usagesOf page k ((us ++ globalItems f count).filter (·.kind.category = .localItem)) =
      usagesOf page k us := by
  have hglobal : (globalItems f count).filter (·.kind.category = .localItem) = [] := by
    rw [List.filter_eq_nil_iff]
    intro i hi
    simp [category_of_mem_globalItems hi]
  have hkind : (us.filter (·.kind.category = .localItem)).filter (·.kind = k) =
      us.filter (·.kind = k) := by
    rw [List.filter_filter]
    apply List.filter_congr
    intro i _
    by_cases hi : i.kind = k
    · simp [hi, hk]
    · simp [hi]
  rw [List.filter_append, hglobal, List.append_nil, usagesOf, hkind, usagesOf]

/-- The usages that the items `us` declare, under the globals `base`. -/
def declaredUsages (base : Globals) (us : List ShortItem) (g : Grouping) : Nat → List Usage :=
  let page := (base.afterAll us).unsigned? .usagePage
  slotUsages g (usagesOf page .usage us) (usagesOf page .usageMinimum us)
    (usagesOf page .usageMaximum us)

variable {s : Reader} {us : List ShortItem}

theorem reportId_afterAll (hus : ∀ i ∈ us, IsUsageItem i) (f : DataField) (count : Nat) :
    s.globals.afterAll (us ++ globalItems f count) .reportId = s.globals .reportId := by
  rw [afterAll_append, afterAll_globalItems_of_ne _ f count (Or.inr rfl)]
  exact afterAll_apply_of_forall_ne fun i hi => (hus i hi).kind_ne (by decide) (by decide)

theorem page_afterAll (base : Globals) (us : List ShortItem) (f : DataField) (count : Nat) :
    (base.afterAll (us ++ globalItems f count)).unsigned? .usagePage =
      (base.afterAll us).unsigned? .usagePage := by
  rw [afterAll_append]
  exact unsigned?_congr (afterAll_globalItems_of_ne _ f count (Or.inl rfl))

/-- The items of a field are read as its values, one after the other from the cursor of its
report on. -/
theorem run?_dataItems (hlocals : s.locals = []) (hus : ∀ i ∈ us, IsUsageItem i)
    (r : ReportKind) (f : DataField) {count : Nat} (hcount : count < UInt32.size)
    (g : Grouping) :
    s.run? (us ++ globalItems f count ++ [.main r (UInt32.ofNat (f.flags.word g))]) =
      some { s with
        globals := s.globals.afterAll (us ++ globalItems f count)
        read := s.read ++ .prepend ((List.range count).map
          (fieldSlot r s.reportId (s.cursors r s.reportId) f g (declaredUsages s.globals us g)))
          .nil
        cursors := s.cursors.advance r s.reportId (count * f.size.adjusted) } := by
  have hnotes : ∀ i ∈ us ++ globalItems f count, i.kind.category ≠ .mainItem := by
    intro i hi
    rcases List.mem_append.1 hi with hi | hi
    · exact (hus i hi).category_ne
    · rw [category_of_mem_globalItems hi]
      exact ItemCategory.noConfusion
  have hadjusted : f.size.adjusted < UInt32.size :=
    Nat.lt_of_le_of_lt f.size.adjusted_le (by decide)
  have hsize : (s.globals.afterAll (us ++ globalItems f count)).unsigned? .reportSize =
      some f.size.adjusted := by
    rw [afterAll_append]
    exact unsigned?_of_eq_ofNat rfl hadjusted
  have hnumber : (s.globals.afterAll (us ++ globalItems f count)).unsigned? .reportCount =
      some count := by
    rw [afterAll_append]
    exact unsigned?_of_eq_ofNat rfl hcount
  let t : Reader := { s with
    globals := s.globals.afterAll (us ++ globalItems f count)
    locals := (us ++ globalItems f count).filter (·.kind.category = .localItem) }
  have hid : t.reportId = s.reportId :=
    congrArg (Option.getD · 0) (unsigned?_congr (reportId_afterAll hus f count))
  have hpage : t.page? = (s.globals.afterAll us).unsigned? .usagePage :=
    page_afterAll s.globals us f count
  have hattributes : t.globals.attributes = f.attributes := by
    simp only [t, afterAll_append, attributes_afterAll_globalItems]
  have hslot : t.slot r (f.flags.word g) f.size.adjusted =
      fieldSlot r s.reportId (s.cursors r s.reportId) f g (declaredUsages s.globals us g) := by
    funext i
    simp only [Reader.slot, hid, hpage, hattributes, DataFlags.readGrouping_word,
      DataFlags.readAlternates_word, fieldSlot, declaredUsages, t]
    rw [usagesOf_append_globalItems _ rfl, usagesOf_append_globalItems _ rfl,
      usagesOf_append_globalItems _ rfl]
  rw [Reader.run?_field hlocals hnotes hsize hnumber (t := t) rfl, DataFlags.toNat_word, hslot,
    hid, ← hlocals]

theorem usagesOf_map_ofNat {page : UInt16} {us : List DocumentedUsage}
    (h : ∀ v ∈ us, v.page = page) :
    usagesOf (some page.toNat) .usage (us.map fun v => .ofNat .usage v.id.toNat) =
      us.map DocumentedUsage.toUsage := by
  induction us with
  | nil => rfl
  | cons u us ih =>
    have hread : ShortItem.usage? (some page.toNat) (.ofNat .usage u.id.toNat) =
        some u.toUsage := by
      rw [ShortItem.usage?_ofNat, ← h u List.mem_cons_self]
    have htail := ih fun v hv => h v (List.mem_cons_of_mem u hv)
    rw [usagesOf] at htail ⊢
    rw [List.map_cons, List.filter_cons_of_pos (by rfl), List.filterMap_cons, hread, htail,
      List.map_cons]

/-- The usages of a list that shares a page are the ones its items declare. -/
theorem declaredUsages_usageItems (base : Globals) {u : DocumentedUsage}
    {us : List DocumentedUsage} (h : ∀ v ∈ us, v.page = u.page) (i : Nat) :
    declaredUsages base (usageItems (u :: us)) .variables i =
      [((u :: us).map DocumentedUsage.toUsage).getD i
        ((us.map DocumentedUsage.toUsage).getLastD u.toUsage)] := by
  have hkinds : ∀ j ∈ (u :: us).map fun v => ShortItem.ofNat .usage v.id.toNat,
      j.kind ≠ .usagePage := by
    intro j hj
    obtain ⟨v, _, rfl⟩ := List.mem_map.1 hj
    exact ItemKind.noConfusion
  have hpage : (base.afterAll (usageItems (u :: us))).unsigned? .usagePage =
      some u.page.toNat := by
    apply unsigned?_of_eq_toNat
    rw [usageItems, afterAll_cons, afterAll_apply_of_forall_ne hkinds]
    rfl
  have husages : usagesOf (some u.page.toNat) .usage (usageItems (u :: us)) =
      (u :: us).map DocumentedUsage.toUsage := by
    have hmap := @usagesOf_map_ofNat u.page (u :: us) (List.forall_mem_cons.2 ⟨rfl, h⟩)
    rwa [usagesOf] at hmap
  rw [declaredUsages, hpage, husages]
  rfl

theorem declaredUsages_usageRangeItems (base : Globals) (r : UsageRange) (i : Nat) :
    declaredUsages base (usageRangeItems r) .variables i =
      [⟨r.page, UInt16.ofNat (r.first.id.toNat + i)⟩] ∧
    declaredUsages base (usageRangeItems r) .array i = r.usages := by
  have hpage : (base.afterAll (usageRangeItems r)).unsigned? .usagePage =
      some r.page.toNat :=
    unsigned?_of_eq_toNat rfl
  have hsingles : usagesOf (some r.page.toNat) .usage (usageRangeItems r) = [] := rfl
  have hfirst : usagesOf (some r.page.toNat) .usageMinimum (usageRangeItems r) =
      [⟨r.page, r.first.id⟩] := by
    change [ShortItem.ofNat .usageMinimum r.first.id.toNat].filterMap _ = _
    rw [List.filterMap_cons, ShortItem.usage?_ofNat, List.filterMap_nil]
  have hlast : usagesOf (some r.page.toNat) .usageMaximum (usageRangeItems r) =
      [⟨r.page, r.last.id⟩] := by
    change [ShortItem.ofNat .usageMaximum r.last.id.toNat].filterMap _ = _
    rw [List.filterMap_cons, ShortItem.usage?_ofNat, List.filterMap_nil]
  rw [declaredUsages, declaredUsages, hpage, hsingles, hfirst, hlast]
  refine ⟨rfl, ?_⟩
  have hlt := r.first_toNat_lt
  have hlen : r.last.id.toNat + 1 - r.first.id.toNat = r.count := by
    rw [UsageRange.count]
    omega
  simp only [slotUsages, usagesBetween, hlen]
  rfl

end Emission

end ReportDescriptor
