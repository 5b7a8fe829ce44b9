import ReportDescriptor.Proofs.Reading.Field

/-!
# Reading the fields of a report

Items that are read as some fields and items that are read as others are, one after the other,
read as all of them, and between the items of a collection they are read as its children. A leaf
states all that is needed to read it.
-/

namespace ReportDescriptor

namespace Cursors

variable (c : Cursors) (r : ReportKind) (id : Nat)

@[simp] theorem advance_self (n : Nat) : c.advance r id n r id = c r id + n :=
  if_pos ⟨rfl, rfl⟩

theorem advance_of_ne {r' : ReportKind} {id' : Nat} (h : ¬(r' = r ∧ id' = id)) (n : Nat) :
    c.advance r id n r' id' = c r' id' :=
  if_neg h

theorem advance_advance (m n : Nat) :
    (c.advance r id m).advance r id n = c.advance r id (m + n) := by
  funext r' id'
  by_cases h : r' = r ∧ id' = id
  · simp only [advance, if_pos h, Nat.add_assoc]
  · simp only [advance, if_neg h]

@[simp] theorem advance_zero : c.advance r id 0 = c := by
  funext r' id'
  simp [advance]

end Cursors

namespace FieldForest

variable (r : ReportKind) (id : Nat)

theorem reading_append (p : Nat × Attributes) (f g : FieldForest) :
    reading r id p (f ++ g) =
      reading r id p f ++ reading r id (p.1 + f.bits, lastAttributes p.2 f.leaves) g := by
  rw [reading, Forest.scan_append, foldl_advance]
  rfl

theorem bits_append (f g : FieldForest) : bits (f ++ g) = bits f + bits g := by
  rw [bits, Forest.leaves_append, total_append, bits, bits]

end FieldForest

namespace Emission

/-- From the cursor of the report with kind `r` and number `id` on, the items are read as the
fields `f` and nothing else. -/
def Reads (r : ReportKind) (id : Nat) (is : List ShortItem) (f : FieldForest) : Prop :=
  ∀ s : Reader, s.locals = [] → s.reportId = id → ∃ g,
    s.run? is = some { s with
      globals := g
      read := s.read ++ f.reading r id (s.cursors r id, s.globals.attributes)
      cursors := s.cursors.advance r id f.bits } ∧
    g.unsigned? .reportId = s.globals.unsigned? .reportId ∧
    g.attributes = lastAttributes s.globals.attributes f.leaves

variable {r : ReportKind} {id : Nat} {is js : List ShortItem} {f f' : FieldForest}

theorem reads_nil : Reads r id [] .nil := by
  intro s _ _
  refine ⟨s.globals, ?_, rfl, rfl⟩
  rw [Reader.run?_nil, FieldForest.reading, Forest.scan, Forest.append_nil]
  simp [FieldForest.bits]

theorem Reads.append (h : Reads r id is f) (h' : Reads r id js f') :
    Reads r id (is ++ js) (f ++ f') := by
  intro s hlocals hid
  obtain ⟨g, hrun, hg, hattributes⟩ := h s hlocals hid
  obtain ⟨g', hrun', hg', hattributes'⟩ := h' { s with
      globals := g
      read := s.read ++ f.reading r id (s.cursors r id, s.globals.attributes)
      cursors := s.cursors.advance r id f.bits } hlocals
    (by rw [← hid, Reader.reportId, Reader.reportId, hg])
  refine ⟨g', ?_, hg'.trans hg, ?_⟩
  · rw [Reader.run?_append, hrun, Option.bind_some, hrun']
    simp only [Cursors.advance_self, Cursors.advance_advance, hattributes, Forest.append_assoc,
      FieldForest.reading_append, FieldForest.bits_append]
  · rw [hattributes', hattributes, Forest.leaves_append, lastAttributes_append]

/-- The reader inside of a collection that has just been opened. -/
def opening (s : Reader) (usage : Usage) (type : CollectionType) : Reader :=
  { s with
    globals := s.globals.after (.ofNat .usagePage usage.page.toNat)
    opened := (⟨type, usage⟩, s.read) :: s.opened
    read := .nil }

theorem run?_openCollection {s : Reader} (hlocals : s.locals = []) (usage : DocumentedUsage)
    (type : CollectionType) :
    s.run? (itemsOf (openCollection usage type)) = some (opening s usage.toUsage type) := by
  have hpage : (s.globals.after (.ofNat .usagePage usage.page.toNat)).unsigned? .usagePage =
      some usage.page.toNat :=
    Globals.unsigned?_of_eq_toNat rfl
  have husages : usagesOf (some usage.page.toNat) .usage [.ofNat .usage usage.id.toNat] =
      [usage.toUsage] :=
    @usagesOf_map_ofNat usage.page [usage] (List.forall_mem_singleton.2 rfl)
  have hcode : CollectionType.ofCode? (UInt32.ofNat type.code).toNat = some type := by
    cases type <;> rfl
  change ((s.step? (.ofNat .usagePage usage.page.toNat)).bind fun t =>
    (t.step? (.ofNat .usage usage.id.toNat)).bind fun t =>
      t.run? [.ofNat .collection type.code]) = _
  rw [Reader.step?_globalItem rfl, Option.bind_some, Reader.step?_localItem rfl,
    Option.bind_some, Reader.run?_cons, Reader.step?_mainItem rfl, Reader.main?]
  simp only [ShortItem.ofNat, ShortItem.unsigned, ItemKind.report?, Reader.openCollection?,
    Reader.page?, hlocals, List.nil_append, if_true] at hpage husages ⊢
  rw [hpage, husages]
  simp only [hcode, Option.map_some, Option.bind_some, Reader.run?_nil, opening, hlocals]
  rfl

theorem run?_closeCollection {s : Reader} (hlocals : s.locals = []) {head : CollectionHead}
    {before : SlotForest} {opened : List (CollectionHead × SlotForest)}
    (hopened : s.opened = (head, before) :: opened) :
    s.run? (itemsOf closeCollection) = some { s with
      opened := opened
      read := before ++ .node head s.read .nil } := by
  change (s.step? (.empty .endCollection)).bind (fun t => t.run? []) = _
  rw [Reader.step?_mainItem rfl, Reader.main?]
  simp only [ShortItem.empty, ItemKind.report?, Reader.closeCollection?, hopened, if_false,
    reduceCtorEq, Option.bind_some, Reader.run?_nil, hlocals]

/-- What is read between the items of a collection comes to stand in it. -/
theorem run?_collection {s : Reader} (hlocals : s.locals = []) {usage : DocumentedUsage}
    {type : CollectionType} {g : Globals} {f : SlotForest} {c : Cursors}
    (h : (opening s usage.toUsage type).run? is =
      some { opening s usage.toUsage type with globals := g, read := f, cursors := c }) :
    s.run? (itemsOf (openCollection usage type) ++ is ++ itemsOf closeCollection) =
      some { s with
        globals := g
        read := s.read ++ .node ⟨type, usage.toUsage⟩ f .nil
        cursors := c } := by
  let last : Reader := { opening s usage.toUsage type with globals := g, read := f, cursors := c }
  have hclose := run?_closeCollection (s := last) hlocals rfl
  rw [Reader.run?_append, Reader.run?_append, run?_openCollection hlocals, Option.bind_some, h,
    Option.bind_some, hclose]
  rfl

/-- Between the items of a collection, items are read as its children. -/
theorem Reads.node (h : Reads r id is f) (c : Collection) :
    Reads r id (itemsOf (openCollection c.usage c.kind.type) ++ is ++ itemsOf closeCollection)
      (.node c f .nil) := by
  intro s hlocals hid
  obtain ⟨g, hrun, hg, hattributes⟩ := h (opening s c.usage.toUsage c.kind.type) hlocals hid
  refine ⟨g, ?_, hg, ?_⟩
  · rw [run?_collection hlocals hrun]
    simp only [FieldForest.reading, Forest.scan, FieldForest.bits, Forest.leaves_node,
      Forest.leaves_nil, List.append_nil]
    rfl
  · rw [hattributes, Forest.leaves_node, Forest.leaves_nil, List.append_nil]
    rfl

/-- A field states all that is needed to read it. -/
theorem reads_data {l : Leaf} {f : DataField} (hdata : l.data? = some f) {us : List ShortItem}
    (hus : ∀ i ∈ us, IsUsageItem i)
    (husages : ∀ base, declaredUsages base us l.grouping = l.usagesAt) :
    Reads r id (us ++ globalItems f l.count.value ++
      [.main r (UInt32.ofNat (f.flags.word l.grouping))]) (.leaf l .nil) := by
  intro s hlocals hid
  have hcount : l.count.value < UInt32.size := Nat.lt_of_le_of_lt l.count.le_max (by decide)
  have hsize : l.size = f.size := by cases l <;> cases hdata <;> rfl
  have hflags : l.flags = f.flags := by rw [Leaf.flags, hdata]; rfl
  have hslots : ∀ start a, l.slots r id start a = (List.range l.count.value).map
      (fieldSlot r id start f l.grouping l.usagesAt) := by
    intro start a
    rw [Leaf.slots, hsize, hflags, Leaf.attributesAfter, hdata]
    rfl
  refine ⟨s.globals.afterAll (us ++ globalItems f l.count.value), ?_,
    Globals.unsigned?_congr (reportId_afterAll hus f _), ?_⟩
  · rw [run?_dataItems hlocals hus r f hcount, husages, hid]
    simp only [FieldForest.reading, Forest.scan, hslots, FieldForest.bits, Forest.leaves_leaf,
      Forest.leaves_nil, total_cons, total_nil, Leaf.bits, hsize, Nat.add_zero]
  · rw [Globals.afterAll_append, attributes_afterAll_globalItems, Forest.leaves_leaf,
      Forest.leaves_nil, lastAttributes, List.foldl_cons, List.foldl_nil, Leaf.attributesAfter,
      hdata]
    rfl

theorem reads_padding (w : BitWidth) :
    Reads r id (itemsOf (paddingEvents (some r) w)) (.leaf (.padding w) .nil) := by
  intro s hlocals hid
  let is : List ShortItem := [.ofNat .reportSize w.bits, .ofNat .reportCount 1]
  have his : ∀ i ∈ is, i.kind.category ≠ .mainItem := by
    intro i hi
    simp only [is, List.mem_cons, List.not_mem_nil, or_false] at hi
    rcases hi with rfl | rfl <;> exact nofun
  have hsize : (s.globals.afterAll is).unsigned? .reportSize = some w.bits :=
    Globals.unsigned?_of_eq_ofNat rfl (Nat.lt_of_le_of_lt w.le_max (by decide))
  have hcount : (s.globals.afterAll is).unsigned? .reportCount = some 1 :=
    Globals.unsigned?_of_eq_ofNat rfl (by decide)
  let t : Reader := { s with
    globals := s.globals.afterAll is
    locals := is.filter (·.kind.category = .localItem) }
  have hid' : t.reportId = id := hid
  have hslot : t.slot r (DataFlags.padding.word .variables) w.bits 0 =
      { report := r
        id := id
        offset := s.cursors r id + 0 * w.bits
        size := w.bits
        usages := []
        attributes := s.globals.attributes
        grouping := .variables
        alternates := DataFlags.padding.alternates } := by
    rw [Reader.slot, hid', DataFlags.readGrouping_word, DataFlags.readAlternates_word]
    rfl
  refine ⟨s.globals.afterAll is, ?_, rfl, rfl⟩
  change s.run? (is ++ [.main r (UInt32.ofNat (DataFlags.padding.word .variables))]) = _
  rw [Reader.run?_field hlocals his hsize hcount (t := t) rfl, hid', DataFlags.toNat_word,
    List.range_one, List.map_singleton, hslot, Nat.one_mul, ← hlocals]
  simp only [FieldForest.reading, Forest.scan, FieldForest.bits, Forest.leaves_leaf,
    Forest.leaves_nil, total_cons, total_nil, Leaf.bits_padding, Nat.add_zero]
  rfl

theorem isUsageItem_usageItems {us : List DocumentedUsage} {i : ShortItem}
    (h : i ∈ usageItems us) : IsUsageItem i := by
  cases us with
  | nil => cases h
  | cons u us =>
    rcases List.mem_cons.1 h with rfl | h
    · exact Or.inl rfl
    · obtain ⟨v, _, rfl⟩ := List.mem_map.1 h
      exact Or.inr rfl

theorem isUsageItem_usageRangeItems {ur : UsageRange} {i : ShortItem}
    (h : i ∈ usageRangeItems ur) : IsUsageItem i := by
  simp only [usageRangeItems, List.mem_cons, List.not_mem_nil, or_false] at h
  rcases h with rfl | rfl | rfl
  · exact Or.inl rfl
  · exact Or.inr rfl
  · exact Or.inr rfl

theorem reads_leaf (l : Leaf) : Reads r id (itemsOf (leafEvents (some r) l)) (.leaf l .nil) := by
  cases l with
  | single v =>
    rw [leafEvents, itemsOf_dataEvents]
    refine reads_data (l := .single v) rfl (fun _ => isUsageItem_usageItems) fun base => ?_
    funext i
    change declaredUsages base (usageItems [v.usage]) .variables i = [v.usage.toUsage]
    rw [declaredUsages_usageItems base (List.forall_mem_nil _)]
    cases i <;> rfl
  | range v =>
    rw [leafEvents, itemsOf_dataEvents]
    refine reads_data (l := .range v) rfl (fun _ => isUsageItem_usageRangeItems) fun base => ?_
    funext i
    exact (declaredUsages_usageRangeItems base v.usages i).1
  | array s =>
    rw [leafEvents, itemsOf_dataEvents]
    refine reads_data (l := .array s) rfl (fun _ => isUsageItem_usageRangeItems) fun base => ?_
    funext i
    exact (declaredUsages_usageRangeItems base s.usages i).2
  | padding w => exact reads_padding w

end Emission

end ReportDescriptor
