import ReportDescriptor.Emission.Basic
import ReportDescriptor.Proofs.Reading.Globals

/-!
# The items of a descriptor

There are few sorts of items that a report is written with, and all fields of a descriptor stand in
reports. So its items are those of the events of its applications. Options decide which of two ways
the events are written in, and whether the items go through elision. None of the items puts globals
aside.
-/

namespace ReportDescriptor

/-- What the given reports are written with. Sizes are those of fields, and ids those of reports. -/
inductive Written (rs : List Report) : ShortItem → Prop
  | size (s : FieldSize) : Written rs (.ofNat .reportSize s.adjusted)
  | id {r : Report} (h : r ∈ rs) : Written rs (.ofNat .reportId r.id.toNat)
  | signed {k : ItemKind} (h : k.isSigned = true) (v : Int32) : Written rs (.signed k v)
  | unsigned {k : ItemKind} (h : k.hasData = true ∧ k.isSigned = false)
      (hne : k ≠ .reportSize ∧ k ≠ .reportId) (v : UInt32) : Written rs (.unsigned k v)
  | endCollection : Written rs (.empty .endCollection)

theorem Written.wellFormed {rs : List Report} {i : ShortItem} (h : Written rs i) :
    i.WellFormed := by
  cases h with
  | size s => exact ⟨rfl, rfl⟩
  | id h => exact ⟨rfl, rfl⟩
  | signed h v => exact h
  | unsigned h hne v => exact h
  | endCollection => rfl

theorem Written.kind_ne {rs : List Report} {i : ShortItem} (h : Written rs i) :
    i.kind ≠ .push ∧ i.kind ≠ .pop := by
  cases h with
  | size s => exact ⟨nofun, nofun⟩
  | id h => exact ⟨nofun, nofun⟩
  | @signed k h v =>
    change k ≠ .push ∧ k ≠ .pop
    constructor <;> rintro rfl <;> cases h
  | @unsigned k h hne v =>
    change k ≠ .push ∧ k ≠ .pop
    constructor <;> rintro rfl <;> cases h.1
  | endCollection => exact ⟨nofun, nofun⟩

/-- An item that can be written, or a note. There are stray fields only where `stray` holds. -/
def Event.IsWritten (rs : List Report) (stray : Prop) : Event → Prop
  | item i => Written rs i
  | combining .. => True
  | strayField => stray

theorem Event.IsWritten.imp {rs : List Report} {stray stray' : Prop} {e : Event}
    (h : e.IsWritten rs stray) (himp : stray → stray') : e.IsWritten rs stray' := by
  cases e with
  | item i => exact h
  | combining count page => trivial
  | strayField => exact himp h

namespace Emission

def itemsOf (events : List Event) : List ShortItem :=
  events.filterMap Event.item?

@[simp] theorem itemsOf_append (es es' : List Event) :
    itemsOf (es ++ es') = itemsOf es ++ itemsOf es' :=
  List.filterMap_append

theorem itemsOf_flatMap {α : Type} (events : α → List Event) (as : List α) :
    itemsOf (as.flatMap events) = as.flatMap fun a => itemsOf (events a) :=
  List.filterMap_flatMap

theorem itemsOf_dataEvents (r : ReportKind) (us : List ShortItem) (f : DataField)
    (count : Nat) (g : Grouping) :
    itemsOf (dataEvents (some r) us f count g) =
      us ++ globalItems f count ++ [.main r (UInt32.ofNat (f.flags.word g))] := by
  have hitem : ∀ is : List ShortItem, itemsOf (is.map Event.item) = is := by
    intro is
    rw [itemsOf, List.filterMap_map]
    exact List.filterMap_some
  rw [dataEvents, itemsOf_append, hitem]
  rfl

theorem Run.events_of_others_ne_nil {q : Run} (h : q.others ≠ []) (report : Option ReportKind) :
    q.events report = .combining q.members.length q.first.usage.page ::
      dataEvents report (usageItems (q.members.map Variable.usage)) q.first.field
        q.members.length .variables := by
  rw [Run.events, if_neg (by simpa using h)]

section Written

variable {rs : List Report} {stray : Prop} (report : Option ReportKind)

theorem written_ofNat {k : ItemKind} (n : Nat)
    (h : (k.hasData = true ∧ k.isSigned = false) ∧ k ≠ .reportSize ∧ k ≠ .reportId) :
    Written rs (.ofNat k n) :=
  .unsigned h.1 h.2 _

theorem written_main (word : Nat) : (Event.main report word).IsWritten rs (report = none) := by
  cases report with
  | none => rfl
  | some r => cases r <;> exact written_ofNat word (by decide)

theorem written_usageItems (us : List DocumentedUsage) : ∀ i ∈ usageItems us, Written rs i := by
  cases us with
  | nil => exact List.forall_mem_nil _
  | cons u us =>
    rw [usageItems, List.forall_mem_cons]
    refine ⟨written_ofNat _ (by decide), ?_⟩
    intro i hi
    obtain ⟨v, -, rfl⟩ := List.mem_map.1 hi
    exact written_ofNat _ (by decide)

theorem written_usageRangeItems (ur : UsageRange) : ∀ i ∈ usageRangeItems ur, Written rs i := by
  simp only [usageRangeItems, List.forall_mem_cons]
  exact ⟨written_ofNat _ (by decide), written_ofNat _ (by decide), written_ofNat _ (by decide),
    List.forall_mem_nil _⟩

theorem written_globalItems (f : DataField) (count : Nat) :
    ∀ i ∈ globalItems f count, Written rs i := by
  simp only [globalItems, List.forall_mem_cons]
  exact ⟨.signed rfl _, .signed rfl _, .signed rfl _, .signed rfl _, written_ofNat _ (by decide),
    written_ofNat _ (by decide), .size f.size, written_ofNat _ (by decide), List.forall_mem_nil _⟩

theorem written_dataEvents {us : List ShortItem} (hus : ∀ i ∈ us, Written rs i) (f : DataField)
    (count : Nat) (g : Grouping) :
    ∀ e ∈ dataEvents report us f count g, e.IsWritten rs (report = none) := by
  rw [dataEvents, List.forall_mem_append, List.forall_mem_map, List.forall_mem_append]
  exact ⟨⟨hus, written_globalItems f count⟩,
    List.forall_mem_singleton.2 (written_main report (f.flags.word g))⟩

theorem written_leafEvents (l : Leaf) :
    ∀ e ∈ leafEvents report l, e.IsWritten rs (report = none) := by
  cases l with
  | single v => exact written_dataEvents report (written_usageItems _) _ _ _
  | range v => exact written_dataEvents report (written_usageRangeItems _) _ _ _
  | array s => exact written_dataEvents report (written_usageRangeItems _) _ _ _
  | padding w =>
    simp only [leafEvents, paddingEvents, List.forall_mem_cons]
    exact ⟨.size ⟨w, .tight⟩, written_ofNat _ (by decide), written_main report _,
      List.forall_mem_nil _⟩

theorem written_runEvents (q : Run) :
    ∀ e ∈ q.events report, e.IsWritten rs (report = none) := by
  cases hothers : q.others.isEmpty with
  | true =>
    rw [Run.events, hothers, if_pos rfl]
    exact written_leafEvents report _
  | false =>
    rw [Run.events, hothers, if_neg Bool.false_ne_true, List.forall_mem_cons]
    exact ⟨trivial, written_dataEvents report (written_usageItems _) _ _ _⟩

theorem written_openCollection (u : DocumentedUsage) (type : CollectionType) :
    ∀ e ∈ openCollection u type, e.IsWritten rs stray := by
  simp only [openCollection, List.forall_mem_cons]
  exact ⟨written_ofNat _ (by decide), written_ofNat _ (by decide), written_ofNat _ (by decide),
    List.forall_mem_nil _⟩

theorem written_closeCollection : ∀ e ∈ closeCollection, e.IsWritten rs stray :=
  List.forall_mem_singleton.2 .endCollection

theorem written_siblingEvents (optimize : Bool) (run : Option Run) (f : FieldForest) :
    ∀ e ∈ siblingEvents optimize report run f, e.IsWritten rs (report = none) := by
  have hrun : ∀ run : Option Run,
      ∀ e ∈ run.elim [] (Run.events report), e.IsWritten rs (report = none) := by
    intro run
    cases run with
    | none => exact List.forall_mem_nil _
    | some q => exact written_runEvents report q
  fun_induction siblingEvents optimize report run f with
  | case1 run => exact hrun run
  | case2 v rest h ih => exact ih
  | case3 v rest h ih => exact List.forall_mem_append.2 ⟨written_leafEvents report _, ih⟩
  | case4 v rest q h ih => exact ih
  | case5 v rest q h ih => exact List.forall_mem_append.2 ⟨written_runEvents report q, ih⟩
  | case6 run l rest h ih =>
    simp only [List.forall_mem_append]
    exact ⟨⟨hrun run, written_leafEvents report l⟩, ih⟩
  | case7 run c children rest ihc ihr =>
    simp only [List.forall_mem_append]
    exact ⟨⟨⟨⟨hrun run, written_openCollection _ _⟩, ihc⟩, written_closeCollection⟩, ihr⟩

theorem written_reportEvents (optimize : Bool) {r : Report} (hr : r ∈ rs) :
    ∀ e ∈ reportEvents optimize r, e.IsWritten rs False :=
  List.forall_mem_cons.2 ⟨.id hr, fun e he =>
    (written_siblingEvents (some r.kind) optimize none r.children e he).imp nofun⟩

theorem written_applicationEvents (optimize : Bool) {a : Application}
    (ha : ∀ r ∈ a.reports, r ∈ rs) :
    ∀ e ∈ applicationEvents optimize a, e.IsWritten rs False := by
  simp only [applicationEvents, List.forall_mem_append]
  refine ⟨⟨written_openCollection _ _, ?_⟩, written_closeCollection⟩
  intro e he
  obtain ⟨r, hr, hevent⟩ := List.mem_flatMap.1 he
  exact written_reportEvents optimize (ha r hr) e hevent

end Written

theorem written_applicationsEvents (optimize : Bool) (d : Descriptor) :
    ∀ e ∈ d.applications.flatMap (applicationEvents optimize), e.IsWritten d.reports False := by
  intro e he
  obtain ⟨a, ha, hevent⟩ := List.mem_flatMap.1 he
  exact written_applicationEvents optimize
    (fun r hr => List.mem_flatMap.2 ⟨a, ha, hr⟩) e hevent

theorem written_itemsOf {rs : List Report} {stray : Prop} {es : List Event}
    (h : ∀ e ∈ es, e.IsWritten rs stray) : ∀ i ∈ itemsOf es, Written rs i := by
  intro i hi
  obtain ⟨e, he, hitem⟩ := List.mem_filterMap.1 hi
  cases e with
  | item j =>
    obtain rfl := Option.some.inj hitem
    exact h _ he
  | combining count page => cases hitem
  | strayField => cases hitem

theorem exists_written_events (optimize : Bool) (x : Element) :
    ∃ rs, ∀ e ∈ x.events optimize, e.IsWritten rs True := by
  cases x with
  | leaf l =>
    exact ⟨[], fun e he => (written_leafEvents none l e he).imp fun _ => trivial⟩
  | collection c children =>
    refine ⟨[], ?_⟩
    simp only [Element.events, List.forall_mem_append]
    exact ⟨⟨written_openCollection _ _, fun e he =>
      (written_siblingEvents none optimize none children e he).imp fun _ => trivial⟩,
      written_closeCollection⟩
  | report r =>
    exact ⟨[r], fun e he =>
      (written_reportEvents optimize (List.mem_singleton_self r) e he).imp nofun⟩
  | application a =>
    exact ⟨a.reports, fun e he => (written_applicationEvents optimize (fun _ => id) e he).imp nofun⟩

/-- Nothing that can be written puts globals aside or brings them back. -/
theorem stackless_of_items {optimize : Bool} {xs : List Element} {is : List ShortItem}
    (h : items (xs.flatMap (Element.events optimize)) = .ok is) : Stackless is := by
  rw [items] at h
  split at h
  case isTrue => cases h
  obtain rfl := Except.ok.inj h
  intro i hi
  change i ∈ itemsOf _ at hi
  rw [itemsOf_flatMap, List.mem_flatMap] at hi
  obtain ⟨x, -, hi⟩ := hi
  obtain ⟨rs, hwritten⟩ := exists_written_events optimize x
  exact (written_itemsOf hwritten i hi).kind_ne

/-- All fields of a descriptor stand in reports. -/
theorem items_elements (d : Descriptor) (optimize : Bool) :
    items (d.elements.flatMap (Element.events optimize)) =
      .ok (itemsOf (d.applications.flatMap (applicationEvents optimize))) := by
  have hevents : d.elements.flatMap (Element.events optimize) =
      d.applications.flatMap (applicationEvents optimize) := by
    rw [Descriptor.elements, List.flatMap_map]
    rfl
  have hstray : .strayField ∉ d.applications.flatMap (applicationEvents optimize) :=
    written_applicationsEvents optimize d .strayField
  rw [hevents, items, if_neg hstray, itemsOf]

theorem stackless_itemsOf (d : Descriptor) (optimize : Bool) :
    Stackless (itemsOf (d.applications.flatMap (applicationEvents optimize))) :=
  stackless_of_items (items_elements d optimize)

theorem result_emit (options : Options) (elements : List Element) :
    (emit options elements).result =
      (items (elements.flatMap (Element.events options.optimize))).map
        (if options.elide then GlobalState.dropRedundant {} else id) := rfl

end Emission

namespace Descriptor

open Emission

theorem result_items (d : Descriptor) (o : Options) :
    (d.items o).result = .ok ((if o.elide then GlobalState.dropRedundant {} else id)
      (itemsOf (d.applications.flatMap (applicationEvents o.optimize)))) := by
  rw [items, result_emit, items_elements]
  rfl

end Descriptor

end ReportDescriptor
