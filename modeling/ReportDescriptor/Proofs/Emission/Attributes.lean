import ReportDescriptor.Proofs.Constructible
import ReportDescriptor.Proofs.Emission.Combination
import ReportDescriptor.Proofs.Reading.Word

/-!
# Attributes of written fields

Attributes are checked when a field is built, for the kind of report that it is built for. The main
item takes its kind from the report around it, which only accepts fields of its own kind, and
shared main items are those of fields with the same attributes. So no main item has attributes that
its kind does not allow.
-/

namespace ReportDescriptor

namespace DataFlags

variable {f : DataFlags} {g : Grouping}

theorem mem_readAlternates {word : Nat} {a : Attribute} :
    a ∈ readAlternates word ↔ word.testBit a.bit = true := by
  simp [readAlternates, Attribute.mem_all]

theorem testBit_word {a : Attribute} :
    (f.word g).testBit a.bit = true ↔ f.get a = some .alternate := by
  rw [← mem_readAlternates, readAlternates_word, mem_alternates]

theorem testBit_one_word : (f.word g).testBit 1 = true ↔ g = .variables := by
  have h := readGrouping_word f g
  rw [readGrouping] at h
  cases hbit : (f.word g).testBit 1 <;> rw [hbit] at h <;> subst h <;> decide

/-- Every bit that is set but the first stands for an attribute. -/
theorem exists_bit_eq {b : Nat} (hb : (f.word g).testBit b = true) (hone : b ≠ 1) :
    ∃ a : Attribute, a.bit = b := by
  have hlt : b < 9 := by
    refine Nat.lt_of_not_le fun hle => ?_
    have hword : f.word g < 2 ^ b :=
      Nat.lt_of_lt_of_le (f.word_lt g) (Nat.pow_le_pow_right (n := 2) (by omega) hle)
    rw [Nat.testBit_lt_two_pow hword] at hb
    cases hb
  have hall : ∀ b < 9, b ≠ 1 → ∃ a ∈ Attribute.all, a.bit = b := by decide
  obtain ⟨a, -, ha⟩ := hall b hlt hone
  exact ⟨a, ha⟩

/-- The main item of an input field does not say volatile, and that of an array says nothing but
constant and relative. -/
theorem allowed_of_validate (h : f.validate .input g = .ok ()) :
    (f.word g).testBit 7 = false ∧
      ((f.word g).testBit 1 = false → ∀ b, (f.word g).testBit b = true → b = 0 ∨ b = 2) := by
  obtain ⟨hvolatility, harray⟩ := validate_eq_ok_iff.1 h rfl
  constructor
  · rw [Bool.eq_false_iff]
    intro hbit
    have hget := (testBit_word (a := .volatility)).1 hbit
    rw [get, hvolatility] at hget
    cases hget
  · intro hone b hb
    have hg : g = .array := by
      cases g
      · rfl
      · rw [testBit_one_word.2 rfl] at hone
        cases hone
    have hne : b ≠ 1 := by
      rintro rfl
      rw [hone] at hb
      cases hb
    obtain ⟨a, rfl⟩ := exists_bit_eq hb hne
    have hget := testBit_word.1 hb
    rcases harray hg a (Option.isSome_of_eq_some hget) with rfl | rfl
    · exact .inl rfl
    · exact .inr rfl

end DataFlags

theorem FieldSpec.validate_of_dataField {s : FieldSpec} {packing : Packing} {report : ReportKind}
    {f : DataField} (h : s.dataField packing report = .ok f) :
    f.report = report ∧ f.flags.validate report .variables = .ok () := by
  obtain ⟨_, _, _, -, -, hflags, rfl⟩ := dataField_eq_ok_iff.1 h
  exact ⟨rfl, hflags⟩

namespace Leaf

/-- The field comes from one that was built for reports of this kind, and may have grown since. -/
def BuiltFor (l : Leaf) (r : ReportKind) : Prop :=
  ∃ s ctx m, Leaf.build s r ctx = .ok m ∧ m.Widened l

/-- The field was built for reports of the kind it is for, and its attributes are such as are
allowed there. Padding has attributes that are allowed in any report. -/
def Validated (l : Leaf) : Prop :=
  (∀ r, l.report? = some r → l.BuiltFor r) ∧
    ∀ r, (∀ k, l.report? = some k → k = r) → l.flags.validate r l.grouping = .ok ()

theorem validate_padding (r : ReportKind) : DataFlags.padding.validate r .variables = .ok () := by
  cases r <;> rfl

theorem flags_withRequested (l : Leaf) (w : BitWidth) : (l.withRequested w).flags = l.flags := by
  cases l <;> rfl

theorem grouping_withRequested (l : Leaf) (w : BitWidth) :
    (l.withRequested w).grouping = l.grouping := by
  cases l <;> rfl

/-- Fields are built for the kind of report that their attributes are checked for. -/
theorem validate_of_build {s : FieldSpec} {report : ReportKind} {ctx : BuildContext} {l : Leaf}
    (h : build s report ctx = .ok l) :
    (∀ r, l.report? = some r → r = report) ∧ l.flags.validate report l.grouping = .ok () := by
  obtain ⟨hgrouping, f, hf, hfield⟩ | ⟨v, rfl, hv⟩ | ⟨w, rfl⟩ := cases_of_build h
  · obtain ⟨hreport, hflags⟩ := FieldSpec.validate_of_dataField hfield
    rw [report?, flags, hf, hgrouping]
    exact ⟨fun r hr => (Option.some.inj hr).symm.trans hreport, hflags⟩
  · obtain ⟨-, -, -, -, -, hflags, hfield⟩ := Selection.build_eq_ok_iff.1 hv
    rw [report?, flags, data?, hfield]
    exact ⟨fun r hr => (Option.some.inj hr).symm, hflags⟩
  · exact ⟨fun r hr => absurd hr.symm (Option.some_ne_none r), validate_padding report⟩

theorem Constructible.validated {l : Leaf} (h : l.Constructible) : l.Validated := by
  refine h.induction (fun s report ctx l hbuild => ?_) fun l m hlm hl => ?_
  · obtain ⟨hreport, hflags⟩ := validate_of_build hbuild
    refine ⟨fun r hr => ?_, fun r hr => ?_⟩
    · obtain rfl := hreport r hr
      exact ⟨s, ctx, l, hbuild, .refl l⟩
    · cases hkind : l.report? with
      | some k =>
        obtain rfl := hr k hkind
        obtain rfl := hreport k hkind
        exact hflags
      | none =>
        cases l with
        | padding w => exact validate_padding r
        | _ => cases hkind
  · obtain ⟨w, hw, rfl⟩ := hlm
    rw [Validated, report?_withRequested, flags_withRequested, grouping_withRequested]
    refine ⟨fun r hr => ?_, hl.2⟩
    obtain ⟨s, ctx, m, hbuild, hm⟩ := hl.1 r hr
    exact ⟨s, ctx, m, hbuild, hm.trans ⟨w, hw, rfl⟩⟩

end Leaf

namespace Emission

/-- The main items of fields. -/
def fieldItems (is : List ShortItem) : List ShortItem :=
  is.filter (·.kind.report?.isSome)

def mainItem (r : ReportKind) (l : Leaf) : ShortItem :=
  .main r (UInt32.ofNat (l.flags.word l.grouping))

@[simp] theorem fieldItems_append (is js : List ShortItem) :
    fieldItems (is ++ js) = fieldItems is ++ fieldItems js :=
  List.filter_append is js

theorem fieldItems_leafItems (r : ReportKind) (l : Leaf) :
    fieldItems (leafItems r l) = [mainItem r l] := by
  cases r <;> cases l <;> rfl

theorem fieldItems_cons (i : ShortItem) (is : List ShortItem) :
    fieldItems (i :: is) = if i.kind.report?.isSome then i :: fieldItems is else fieldItems is :=
  List.filter_cons

theorem fieldItems_flatMap_leafItems (r : ReportKind) (ls : List Leaf) :
    fieldItems (ls.flatMap (leafItems r)) = ls.map (mainItem r) := by
  rw [fieldItems, List.filter_flatMap, List.map_eq_flatMap]
  congr 1
  funext l
  exact fieldItems_leafItems r l

/-- Elision only leaves out global items. -/
theorem filter_dropRedundant {p : ShortItem → Bool}
    (hp : ∀ i, i.kind.category = .globalItem → p i = false) (t : GlobalState)
    (is : List ShortItem) : (t.dropRedundant is).filter p = is.filter p := by
  fun_induction GlobalState.dropRedundant t is with
  | case1 t => rfl
  | case2 t i is hred ih =>
    obtain ⟨hglobal, -⟩ := GlobalState.isRedundant_iff.1 hred
    rw [ih, List.filter_cons_of_neg (Bool.eq_false_iff.1 (hp i hglobal))]
  | case3 t i is hred ih => rw [List.filter_cons, List.filter_cons, ih]

theorem fieldItems_dropRedundant (t : GlobalState) (is : List ShortItem) :
    fieldItems (t.dropRedundant is) = fieldItems is := by
  refine filter_dropRedundant (fun i hglobal => ?_) t is
  cases hkind : i.kind <;> rw [hkind] at hglobal <;> first | rfl | cases hglobal

/-- The items of variables that share a main item. -/
def sharedItems (r : ReportKind) (v : Variable) (ws : List Variable) : List ShortItem :=
  .ofNat .usagePage v.usage.page.toNat :: (v :: ws).map (fun w => .ofNat .usage w.usage.id.toNat) ++
    globalItems v.field (v :: ws).length ++ [mainItem r (.single v)]

theorem itemsOf_run_eq_sharedItems (r : ReportKind) {q : Run} (hothers : q.others ≠ []) :
    itemsOf (q.events (some r)) = sharedItems r q.first q.others.reverse := by
  rw [itemsOf_run r hothers, sharedItems, globalItems_eq]
  simp only [List.cons_append, List.append_assoc]
  rfl

theorem fieldItems_sharedItems (r : ReportKind) (v : Variable) (ws : List Variable) :
    fieldItems (sharedItems r v ws) = [mainItem r (.single v)] := by
  have husages : fieldItems ((v :: ws).map fun w => .ofNat .usage w.usage.id.toNat) = [] := by
    rw [fieldItems, List.filter_eq_nil_iff]
    intro i hi
    obtain ⟨w, -, rfl⟩ := List.mem_map.1 hi
    exact Bool.false_ne_true
  rw [sharedItems, List.cons_append, ← List.singleton_append, fieldItems_append,
    fieldItems_append, fieldItems_append, husages]
  cases r <;> rfl

theorem fieldItems_run (r : ReportKind) {q : Run} (hothers : q.others ≠ []) :
    fieldItems (itemsOf (q.events (some r))) = [mainItem r (.single q.first)] := by
  rw [itemsOf_run_eq_sharedItems r hothers, fieldItems_sharedItems]

theorem mainItem_eq_of_combinableWith (r : ReportKind) {v w : Variable}
    (h : v.combinableWith w = true) : mainItem r (.single w) = mainItem r (.single v) := by
  obtain ⟨-, -, -, -, hfield⟩ := Variable.combinableWith_iff.1 h
  have hflags : w.field.flags = v.field.flags := by rw [← hfield]
  exact congrArg (fun f : DataFlags => ShortItem.main r (UInt32.ofNat (f.word .variables))) hflags

theorem Run.IsUniform.mainItem_eq {q : Run} (hq : q.IsUniform) (hothers : q.others ≠ [])
    (r : ReportKind) : ∀ l ∈ q.leaves, mainItem r l = mainItem r (.single q.first) := by
  intro l hl
  obtain ⟨v, hv, rfl⟩ := List.mem_map.1 hl
  exact mainItem_eq_of_combinableWith r (hq.combinableWith hothers v hv)

theorem forall₂_map_append {α β : Type} {R : α → β → Prop} {g : α → β} {as as' : List α}
    {bs : List β} (h : List.Forall₂ R (as ++ as') (as.map g ++ bs)) :
    (∀ a ∈ as, R a (g a)) ∧ List.Forall₂ R as' bs := by
  induction as with
  | nil => exact ⟨List.forall_mem_nil _, h⟩
  | cons a as ih =>
    cases h with
    | cons ha hrest => exact ⟨List.forall_mem_cons.2 ⟨ha, (ih hrest).1⟩, (ih hrest).2⟩

namespace Combines

variable {bs : List (List Leaf)} {is js : List ShortItem}

/-- Every field is written, and perhaps there are other main items. -/
theorem length_flatten_le (h : Combines bs is js) :
    bs.flatten.length ≤ (fieldItems js).length := by
  induction h with
  | nil => exact Nat.le_refl _
  | item hi _ ih =>
    rw [fieldItems_cons]
    split
    · exact Nat.le_succ_of_le ih
    · exact ih
  | alone r l _ ih =>
    rw [fieldItems_append, fieldItems_leafItems, List.flatten_cons]
    exact Nat.succ_le_succ ih
  | shared r hq hothers _ ih =>
    rw [fieldItems_append, fieldItems_flatMap_leafItems, List.flatten_cons, List.length_append,
      List.length_append, List.length_map]
    omega

/-- What each field has to do with its own main item, all fields of a block have to do with the one
they share. -/
theorem forall₂_fieldItems {R : Leaf → ShortItem → Prop} (h : Combines bs is js)
    (hjs : List.Forall₂ R bs.flatten (fieldItems js)) :
    List.Forall₂ (fun b i => ∀ l ∈ b, R l i) bs (fieldItems is) := by
  induction h with
  | nil => exact .nil
  | @item bs is js i hi h ih =>
    rw [fieldItems_cons] at hjs ⊢
    split at hjs
    -- The main items are as many as the fields, so none is left for anything else.
    · have hlength := hjs.length_eq
      have hle := h.length_flatten_le
      rw [List.length_cons] at hlength
      omega
    case isFalse hmain =>
      rw [if_neg hmain]
      exact ih hjs
  | alone r l _ ih =>
    rw [fieldItems_append, fieldItems_leafItems] at hjs ⊢
    cases hjs with
    | cons hl hrest => exact .cons (List.forall_mem_singleton.2 hl) (ih hrest)
  | @shared bs is js r q hq hothers _ ih =>
    rw [fieldItems_append, fieldItems_flatMap_leafItems, List.flatten_cons] at hjs
    obtain ⟨hleaves, hrest⟩ := forall₂_map_append hjs
    rw [fieldItems_append, fieldItems_run r hothers]
    exact .cons (fun l hl => hq.mainItem_eq hothers r l hl ▸ hleaves l hl) (ih hrest)

end Combines

theorem fieldItems_openCollection (u : DocumentedUsage) (type : CollectionType) :
    fieldItems (itemsOf (openCollection u type)) = [] := rfl

theorem fieldItems_closeCollection : fieldItems (itemsOf closeCollection) = [] := rfl

theorem fieldItems_siblings (r : ReportKind) (f : FieldForest) :
    fieldItems (itemsOf (siblingEvents false (some r) none f)) = f.leaves.map (mainItem r) := by
  induction f with
  | nil => rfl
  | leaf l rest ih =>
    rw [siblingEvents_leaf, itemsOf_append, fieldItems_append, ih, ← leafItems,
      fieldItems_leafItems]
    rfl
  | node c children rest ihc ihr =>
    rw [siblingEvents_node]
    simp only [itemsOf_append, fieldItems_append, ihc, ihr, Forest.leaves_node, List.map_append,
      fieldItems_openCollection, fieldItems_closeCollection, List.nil_append, List.append_nil]

theorem fieldItems_report (r : Report) :
    fieldItems (itemsOf (reportEvents false r)) = r.leaves.map (mainItem r.kind) :=
  fieldItems_siblings r.kind r.children

theorem fieldItems_flatMap {α : Type} (events : α → List Event) (as : List α) :
    fieldItems (itemsOf (as.flatMap events)) =
      as.flatMap fun a => fieldItems (itemsOf (events a)) := by
  rw [itemsOf_flatMap, fieldItems, List.filter_flatMap]
  rfl

theorem fieldItems_applications (d : Descriptor) :
    fieldItems (itemsOf (d.applications.flatMap (applicationEvents false))) =
      d.reports.flatMap fun r => r.leaves.map (mainItem r.kind) := by
  rw [fieldItems_flatMap, Descriptor.reports, List.flatMap_assoc]
  congr 1
  funext a
  rw [applicationEvents, itemsOf_append, itemsOf_append, fieldItems_append, fieldItems_append,
    fieldItems_openCollection, fieldItems_closeCollection, List.nil_append, List.append_nil,
    fieldItems_flatMap]
  congr 1
  funext r
  exact fieldItems_report r

end Emission

/-- The item is the main item of the field, in a report of the kind that the attributes of the
field have been checked for. -/
def Leaf.WrittenAs (l : Leaf) (i : ShortItem) : Prop :=
  ∃ r, i = .main r (UInt32.ofNat (l.flags.word l.grouping)) ∧
    (∀ k, l.report? = some k → k = r ∧ l.BuiltFor r) ∧ l.flags.validate r l.grouping = .ok ()

theorem Leaf.WrittenAs.allowed {l : Leaf} {i : ShortItem} (h : l.WrittenAs i)
    (hinput : i.kind = .input) :
    ∃ v, i.value = .unsigned v ∧ v.toNat.testBit 7 = false ∧
      (v.toNat.testBit 1 = false → ∀ b, v.toNat.testBit b = true → b = 0 ∨ b = 2) := by
  obtain ⟨r, rfl, -, hvalid⟩ := h
  obtain rfl : r = .input := by
    cases r with
    | input => rfl
    | output => cases hinput
    | feature => cases hinput
  refine ⟨_, rfl, ?_⟩
  rw [DataFlags.toNat_word]
  exact DataFlags.allowed_of_validate hvalid

namespace Descriptor

open Emission

/-- The fields that share a main item, in the order of the main items. Without optimization each
has its own. -/
def groups (d : Descriptor) (optimize : Bool) : List (List Leaf) :=
  if optimize then d.blocks else (d.reports.flatMap Report.leaves).map ([·])

theorem flatten_blocks (d : Descriptor) : d.blocks.flatten = d.reports.flatMap Report.leaves := by
  rw [blocks, ← List.flatMap_id, List.flatMap_assoc]
  congr 1
  funext r
  rw [List.flatMap_id]
  exact FieldForest.flatten_blocks r.children

theorem Constructible.writtenAs_mainItem {d : Descriptor} (hd : d.Constructible) {r : Report}
    (hr : r ∈ d.reports) : ∀ l ∈ r.leaves, l.WrittenAs (mainItem r.kind l) := by
  intro l hl
  have hreport := hd.reports r hr
  have hkind := hreport.isBuilt.eq_kind l hl
  obtain ⟨hbuilt, hvalid⟩ := (hreport.leaves l hl).validated
  refine ⟨r.kind, rfl, fun k hk => ?_, hvalid r.kind hkind⟩
  obtain rfl := hkind k hk
  exact ⟨rfl, hbuilt _ hk⟩

theorem forall₂_flatMap_map {α β γ : Type} {R : β → γ → Prop} {f : α → List β} {g : α → β → γ}
    {as : List α} (h : ∀ a ∈ as, ∀ b ∈ f a, R b (g a b)) :
    List.Forall₂ R (as.flatMap f) (as.flatMap fun a => (f a).map (g a)) := by
  induction as with
  | nil => exact .nil
  | cons a as ih =>
    rw [List.forall_mem_cons] at h
    exact List.rel_append (List.forall₂_map_right_iff.2 (List.forall₂_same.2 h.1)) (ih h.2)

/-- Whatever the options, the main items of fields are those of the groups, one each. -/
theorem Constructible.forall₂_groups {d : Descriptor} (hd : d.Constructible) (o : Options) :
    List.Forall₂ (fun b i => ∀ l ∈ b, l.WrittenAs i) (d.groups o.optimize)
      (fieldItems (itemsOf (d.applications.flatMap (applicationEvents o.optimize)))) := by
  have hapart : List.Forall₂ Leaf.WrittenAs (d.reports.flatMap Report.leaves)
      (fieldItems (itemsOf (d.applications.flatMap (applicationEvents false)))) := by
    rw [fieldItems_applications]
    exact forall₂_flatMap_map fun r hr => hd.writtenAs_mainItem hr
  cases o.optimize with
  | true =>
    have hcombines := combines_applications d
    rw [← flatten_blocks] at hapart
    exact hcombines.forall₂_fieldItems hapart
  | false =>
    refine List.forall₂_map_left_iff.2 (hapart.imp fun l i hl m hm => ?_)
    exact List.eq_of_mem_singleton hm ▸ hl

theorem groups_ne_nil {d : Descriptor} {optimize : Bool} : ∀ b ∈ d.groups optimize, b ≠ [] := by
  intro b hb
  cases optimize with
  | true =>
    rcases (combines_applications d).forall_block b hb with ⟨l, rfl⟩ | ⟨hlen, -⟩
    · exact List.cons_ne_nil _ _
    · rintro rfl
      cases hlen
  | false =>
    obtain ⟨l, -, rfl⟩ := List.mem_map.1 hb
    exact List.cons_ne_nil _ _

/-- The main items of input fields have no attributes that input fields may not have, and each
field is written for the kind of report that its attributes have been checked for. -/
theorem attributes_allowed (d : Descriptor) (hd : d.Constructible) (o : Options) :
    ∃ items, (d.items o).result = .ok items ∧
      (∀ i ∈ items, i.kind = .input → ∃ v, i.value = .unsigned v ∧ v.toNat.testBit 7 = false ∧
        (v.toNat.testBit 1 = false → ∀ b, v.toNat.testBit b = true → b = 0 ∨ b = 2)) ∧
      List.Forall₂ (fun b i => ∀ l ∈ b, l.WrittenAs i) (d.groups o.optimize)
        (fieldItems items) := by
  have hfields : fieldItems ((if o.elide then GlobalState.dropRedundant {} else id)
      (itemsOf (d.applications.flatMap (applicationEvents o.optimize)))) =
      fieldItems (itemsOf (d.applications.flatMap (applicationEvents o.optimize))) := by
    split
    · exact fieldItems_dropRedundant _ _
    · rfl
  have hgroups := hd.forall₂_groups o
  rw [← hfields] at hgroups
  refine ⟨_, result_items d o, fun i hi hinput => ?_, hgroups⟩
  have hfield : i ∈ fieldItems ((if o.elide then GlobalState.dropRedundant {} else id)
      (itemsOf (d.applications.flatMap (applicationEvents o.optimize)))) :=
    List.mem_filter.2 ⟨hi, by rw [hinput]; rfl⟩
  obtain ⟨l, hl⟩ := forall_mem_of_forall₂ (Q := fun i => ∃ l, Leaf.WrittenAs l i)
    (fun b i hb hne => (List.exists_mem_of_ne_nil b hne).imp hb) hgroups groups_ne_nil i hfield
  exact hl.allowed hinput

theorem attributes_allowed_keypad :
    Sample.keypadDevice.Constructible ∧
      ∃ items, (Sample.keypadDevice.items { optimize := true, elide := true }).result = .ok items ∧
        (∀ i ∈ items, i.kind = .input → ∃ v, i.value = .unsigned v ∧ v.toNat.testBit 7 = false ∧
          (v.toNat.testBit 1 = false → ∀ b, v.toNat.testBit b = true → b = 0 ∨ b = 2)) ∧
        List.Forall₂ (fun b i => ∀ l ∈ b, l.WrittenAs i) (Sample.keypadDevice.groups true)
          (fieldItems items) :=
  ⟨Sample.keypadDevice_constructible,
    attributes_allowed _ Sample.keypadDevice_constructible { optimize := true, elide := true }⟩

end Descriptor

end ReportDescriptor
