import ReportDescriptor.Proofs.Emission.Blocks
import ReportDescriptor.Proofs.Reading.Siblings

/-!
# Combination

With optimization the variables of a block share a main item, without it each field has its own.
So the items with and without optimization are those of the same blocks, one after the other, with
the same items around them.
-/

namespace ReportDescriptor

namespace Emission

open FieldForest

def leafItems (r : ReportKind) (l : Leaf) : List ShortItem :=
  itemsOf (leafEvents (some r) l)

theorem Run.length_members (q : Run) : q.members.length = q.others.length + 1 := by
  rw [Run.members, List.length_cons, List.length_reverse]

theorem Run.length_leaves (q : Run) : q.leaves.length = q.others.length + 1 := by
  rw [Run.leaves, List.length_map, length_members]

theorem Run.IsUniform.combinableWith {q : Run} (hq : q.IsUniform) (hothers : q.others ≠ []) :
    ∀ v ∈ q.members, q.first.combinableWith v = true := by
  obtain ⟨w, hw⟩ := List.exists_mem_of_ne_nil _ hothers
  rw [Run.members, List.forall_mem_cons]
  exact ⟨Variable.combinableWith_trans (hq w hw) (Variable.combinableWith_symm (hq w hw)),
    fun v hv => hq v (List.mem_reverse.1 hv)⟩

/-- The globals of a field but for its count. -/
def settings (f : DataField) : List ShortItem :=
  (globalItems f 1).dropLast

theorem globalItems_eq (f : DataField) (count : Nat) :
    globalItems f count = settings f ++ [.ofNat .reportCount count] := rfl

theorem settings_eq_of_combinableWith {v w : Variable} (h : v.combinableWith w = true) :
    settings w.field = settings v.field := by
  obtain ⟨-, -, -, hadjusted, hfield⟩ := Variable.combinableWith_iff.1 h
  rw [settings, globalItems, ← hadjusted, ← hfield]
  rfl

section Run

variable (r : ReportKind) {q : Run} (hq : q.IsUniform) (hothers : q.others ≠ [])
include hothers

theorem itemsOf_run : itemsOf (q.events (some r)) =
    .ofNat .usagePage q.first.usage.page.toNat ::
      (q.members.map (fun v => .ofNat .usage v.usage.id.toNat) ++ (settings q.first.field ++
        [.ofNat .reportCount q.members.length,
          .main r (UInt32.ofNat (q.first.field.flags.word .variables))])) := by
  rw [Run.events_of_others_ne_nil hothers, itemsOf, List.filterMap_cons_none rfl, ← itemsOf,
    itemsOf_dataEvents, globalItems_eq, List.append_assoc, List.append_assoc]
  simp only [Run.members, List.map_cons, usageItems, List.map_map]
  rfl

include hq

/-- A member of a run says the same as the run, but for its usage and the count. -/
theorem leafItems_member : ∀ v ∈ q.members, leafItems r (.single v) =
    .ofNat .usagePage q.first.usage.page.toNat :: .ofNat .usage v.usage.id.toNat ::
      (settings q.first.field ++ [.ofNat .reportCount 1,
        .main r (UInt32.ofNat (q.first.field.flags.word .variables))]) := by
  intro v hv
  have hcombinable := hq.combinableWith hothers v hv
  obtain ⟨-, hcount, hpage, -, hfield⟩ := Variable.combinableWith_iff.1 hcombinable
  have hflags : v.field.flags = q.first.field.flags := by rw [← hfield]
  rw [leafItems, leafEvents, itemsOf_dataEvents, globalItems_eq,
    settings_eq_of_combinableWith hcombinable, hcount, hflags, hpage]
  simp only [usageItems, List.append_assoc]
  rfl

end Run

/-- The items of the same blocks with shared main items, and with one for each field. -/
inductive Combines : List (List Leaf) → List ShortItem → List ShortItem → Prop
  | nil : Combines [] [] []
  | item {bs : List (List Leaf)} {is js : List ShortItem} {i : ShortItem}
      (hi : i.kind ≠ .reportCount) (h : Combines bs is js) : Combines bs (i :: is) (i :: js)
  | alone {bs : List (List Leaf)} {is js : List ShortItem} (r : ReportKind) (l : Leaf)
      (h : Combines bs is js) : Combines ([l] :: bs) (leafItems r l ++ is) (leafItems r l ++ js)
  | shared {bs : List (List Leaf)} {is js : List ShortItem} (r : ReportKind) {q : Run}
      (hq : q.IsUniform) (hothers : q.others ≠ []) (h : Combines bs is js) :
      Combines (q.leaves :: bs) (itemsOf (q.events (some r)) ++ is)
        (q.leaves.flatMap (leafItems r) ++ js)

namespace Combines

variable {bs bs' : List (List Leaf)} {is is' js js' : List ShortItem}

theorem append (h : Combines bs is js) (h' : Combines bs' is' js') :
    Combines (bs ++ bs') (is ++ is') (js ++ js') := by
  induction h with
  | nil => exact h'
  | item hi _ ih => exact .item hi ih
  | alone r l _ ih =>
    rw [List.append_assoc, List.append_assoc]
    exact .alone r l ih
  | shared r hq hothers _ ih =>
    rw [List.append_assoc, List.append_assoc]
    exact .shared r hq hothers ih

theorem items {ks : List ShortItem} (hks : ∀ i ∈ ks, i.kind ≠ .reportCount)
    (h : Combines bs is js) : Combines bs (ks ++ is) (ks ++ js) := by
  induction ks with
  | nil => exact h
  | cons k ks ih =>
    rw [List.forall_mem_cons] at hks
    exact .item hks.1 (ih hks.2)

theorem flatMap {α : Type} {blocks : α → List (List Leaf)} {together apart : α → List ShortItem}
    {as : List α} (h : ∀ a ∈ as, Combines (blocks a) (together a) (apart a)) :
    Combines (as.flatMap blocks) (as.flatMap together) (as.flatMap apart) := by
  induction as with
  | nil => exact .nil
  | cons a as ih =>
    rw [List.forall_mem_cons] at h
    exact h.1.append (ih h.2)

theorem run (r : ReportKind) {q : Run} (hq : q.IsUniform) (h : Combines bs is js) :
    Combines (q.leaves :: bs) (itemsOf (q.events (some r)) ++ is)
      (q.leaves.flatMap (leafItems r) ++ js) := by
  by_cases hothers : q.others = []
  · have hevents : q.events (some r) = leafEvents (some r) (.single q.first) := by
      rw [Run.events, hothers]
      rfl
    have hleaves : q.leaves = [.single q.first] := by
      rw [Run.leaves, Run.members, hothers]
      rfl
    rw [hevents, hleaves, List.flatMap_singleton]
    exact .alone r (.single q.first) h
  · exact .shared r hq hothers h

/-- The fields that have been met before `f` are a block, since `f` does not join them. -/
theorem pending (r : ReportKind) {f : FieldForest} (h : Combines (blocks f) is js)
    {run : Option Run} (hrun : ∀ q ∈ run, q.IsUniform)
    (hend : ∀ m ∈ first? f, ∀ q ∈ run, ∀ w ∈ q.members, (Leaf.single w).joins m = false) :
    Combines (blocks (.prepend (pending run) f))
      (itemsOf (run.elim [] (Run.events (some r))) ++ is)
      ((Emission.pending run).flatMap (leafItems r) ++ js) := by
  rw [blocks_pending hrun hend]
  cases run with
  | none => exact h
  | some q => exact h.run r (hrun q rfl)

end Combines

/-- The number of values that a block is written with. -/
def values (b : List Leaf) : Nat :=
  total (fun l => l.count.value) b

def countItems (is : List ShortItem) : List ShortItem :=
  is.filter (·.kind = .reportCount)

@[simp] theorem countItems_append (is js : List ShortItem) :
    countItems (is ++ js) = countItems is ++ countItems js :=
  List.filter_append is js

theorem countItems_cons (i : ShortItem) (is : List ShortItem) :
    countItems (i :: is) = if i.kind = .reportCount then i :: countItems is else countItems is := by
  simp only [countItems, List.filter_cons, decide_eq_true_eq]

theorem mem_countItems {i : ShortItem} {is : List ShortItem} :
    i ∈ countItems is ↔ i ∈ is ∧ i.kind = .reportCount := by
  rw [countItems, List.mem_filter, decide_eq_true_eq]

theorem countItems_leafItems (r : ReportKind) (l : Leaf) :
    countItems (leafItems r l) = [.ofNat .reportCount l.count.value] := by
  cases r <;> cases l <;> rfl

theorem values_eq_length {b : List Leaf} (h : ∀ l ∈ b, l.count.value = 1) :
    values b = b.length := by
  induction b with
  | nil => rfl
  | cons l b ih =>
    rw [List.forall_mem_cons] at h
    have hrest := ih h.2
    rw [values] at hrest ⊢
    rw [total_cons, hrest, h.1, List.length_cons, Nat.add_comm]

theorem Run.IsUniform.count_eq_one {q : Run} (hq : q.IsUniform) (hothers : q.others ≠ []) :
    ∀ l ∈ q.leaves, l.count.value = 1 := by
  intro l hl
  obtain ⟨v, hv, rfl⟩ := List.mem_map.1 hl
  obtain ⟨-, hcount, -⟩ := Variable.combinableWith_iff.1 (hq.combinableWith hothers v hv)
  exact congrArg FieldCount.value hcount

theorem Run.IsUniform.values_leaves {q : Run} (hq : q.IsUniform) (hothers : q.others ≠ []) :
    values q.leaves = q.members.length := by
  rw [values_eq_length (hq.count_eq_one hothers), Run.leaves, List.length_map]

theorem countItems_run (r : ReportKind) {q : Run} (hothers : q.others ≠ []) :
    countItems (itemsOf (q.events (some r))) = [.ofNat .reportCount q.members.length] := by
  have husages : countItems (q.members.map fun v => .ofNat .usage v.usage.id.toNat) = [] := by
    rw [countItems, List.filter_eq_nil_iff]
    intro i hi
    obtain ⟨v, -, rfl⟩ := List.mem_map.1 hi
    exact Bool.false_ne_true
  rw [itemsOf_run r hothers, ← List.singleton_append, countItems_append, countItems_append,
    husages]
  cases r <;> rfl

/-- Each block has one count among the items, and without sharing each field has its own. -/
theorem Combines.countItems_eq {bs : List (List Leaf)} {is js : List ShortItem}
    (h : Combines bs is js) :
    countItems is = bs.map (fun b => .ofNat .reportCount (values b)) ∧
      countItems js = bs.flatten.map fun l => .ofNat .reportCount l.count.value := by
  induction h with
  | nil => exact ⟨rfl, rfl⟩
  | item hi _ ih =>
    rw [countItems_cons, countItems_cons, if_neg hi, if_neg hi]
    exact ih
  | alone r l _ ih =>
    rw [countItems_append, countItems_append, countItems_leafItems, ih.1, ih.2]
    exact ⟨rfl, rfl⟩
  | @shared bs is js r q hq hothers _ ih =>
    have hmembers : countItems (q.leaves.flatMap (leafItems r)) =
        q.leaves.map fun l => .ofNat .reportCount l.count.value := by
      rw [countItems, List.filter_flatMap, List.map_eq_flatMap]
      congr 1
      funext l
      exact countItems_leafItems r l
    rw [countItems_append, countItems_append, countItems_run r hothers, hmembers, ih.1, ih.2,
      List.map_cons, hq.values_leaves hothers, List.flatten_cons, List.map_append]
    exact ⟨rfl, rfl⟩

/-- Fields that share have one value each. -/
theorem Combines.forall_block {bs : List (List Leaf)} {is js : List ShortItem}
    (h : Combines bs is js) : ∀ b ∈ bs,
      (∃ l, b = [l]) ∨ 2 ≤ b.length ∧ ∀ l ∈ b, l.count.value = 1 := by
  induction h with
  | nil => exact List.forall_mem_nil _
  | item hi _ ih => exact ih
  | alone r l _ ih => exact List.forall_mem_cons.2 ⟨.inl ⟨l, rfl⟩, ih⟩
  | shared r hq hothers _ ih =>
    have hpos := List.length_pos_iff.2 hothers
    refine List.forall_mem_cons.2 ⟨.inr ⟨?_, hq.count_eq_one hothers⟩, ih⟩
    rw [Run.length_leaves]
    omega

/-- Without optimization every field is written when it is met. -/
theorem siblingEvents_leaf (report : Option ReportKind) (l : Leaf) (rest : FieldForest) :
    siblingEvents false report none (.leaf l rest) =
      leafEvents report l ++ siblingEvents false report none rest := by
  cases l <;> rfl

theorem siblingEvents_node (report : Option ReportKind) (c : Collection)
    (children rest : FieldForest) :
    siblingEvents false report none (.node c children rest) =
      openCollection c.usage c.kind.type ++ siblingEvents false report none children ++
        closeCollection ++ siblingEvents false report none rest := rfl

theorem kind_ne_reportCount_of_openCollection (u : DocumentedUsage) (type : CollectionType) :
    ∀ i ∈ itemsOf (openCollection u type), i.kind ≠ .reportCount := by
  simp [openCollection, itemsOf, Event.item?, ShortItem.ofNat, ShortItem.unsigned]

theorem kind_ne_reportCount_of_closeCollection :
    ∀ i ∈ itemsOf closeCollection, i.kind ≠ .reportCount := by
  simp [closeCollection, itemsOf, Event.item?, ShortItem.empty]

/-- The siblings behind the pending fields, with and without optimization. -/
theorem combines_siblings (r : ReportKind) {run : Option Run} (hrun : ∀ q ∈ run, q.IsUniform)
    (f : FieldForest) :
    Combines (blocks (.prepend (pending run) f)) (itemsOf (siblingEvents true (some r) run f))
      ((pending run).flatMap (leafItems r) ++ itemsOf (siblingEvents false (some r) none f)) := by
  fun_induction siblingEvents true (some r) run f with
  | case1 run =>
    have hend : ∀ m ∈ first? .nil, ∀ q ∈ run, ∀ w ∈ q.members, (Leaf.single w).joins m = false :=
      fun m hm => absurd hm (Option.not_mem_none m)
    have hpending := Combines.nil.pending r (f := .nil) hrun hend
    rwa [List.append_nil] at hpending
  | case2 v rest h ih =>
    have hfirst := ih (forall_mem_first v)
    rw [siblingEvents_leaf, itemsOf_append]
    rwa [pending_first, List.flatMap_singleton] at hfirst
  | case3 v rest h ih => exact absurd rfl h
  | case4 v rest q hjoins ih =>
    have hmember := ih fun _ h =>
      Option.some.inj h ▸ List.forall_mem_cons.2 ⟨hjoins, hrun q rfl⟩
    rw [pending_join, Forest.prepend_append, List.flatMap_append, List.flatMap_singleton,
      List.append_assoc] at hmember
    rw [siblingEvents_leaf, itemsOf_append]
    exact hmember
  | case5 v rest q hjoins ih =>
    have hfirst := ih (forall_mem_first v)
    rw [pending_first, List.flatMap_singleton] at hfirst
    rw [itemsOf_append, siblingEvents_leaf, itemsOf_append]
    refine hfirst.pending r hrun fun m hm q' hq' w hw => ?_
    obtain rfl := Option.some.inj hm
    obtain rfl := Option.some.inj hq'
    exact (hrun q rfl).not_combinableWith hjoins w hw
  | case6 run l rest hother ih =>
    have hrest := ih forall_mem_none
    have hleaf := blocks_leaf_of_not_single hother rest ▸ hrest.alone r l
    rw [itemsOf_append, itemsOf_append, List.append_assoc, siblingEvents_leaf, itemsOf_append]
    refine hleaf.pending r hrun fun m hm q _ w _ => ?_
    obtain rfl := Option.some.inj hm
    exact not_joins_of_not_single hother
  | case7 run c children rest ihc ihr =>
    have hopen := kind_ne_reportCount_of_openCollection c.usage c.kind.type
    have hnode := ((ihc forall_mem_none).append
      ((ihr forall_mem_none).items kind_ne_reportCount_of_closeCollection)).items hopen
    simp only [itemsOf_append, siblingEvents_node, List.append_assoc]
    exact hnode.pending (f := .node c children rest) r hrun fun m hm =>
      absurd hm (Option.not_mem_none m)

theorem combines_report (r : Report) :
    Combines (FieldForest.blocks r.children) (itemsOf (reportEvents true r))
      (itemsOf (reportEvents false r)) :=
  (combines_siblings r.kind forall_mem_none r.children).item fun h => nomatch h

theorem combines_application (a : Application) :
    Combines (a.reports.flatMap fun r => FieldForest.blocks r.children)
      (itemsOf (applicationEvents true a)) (itemsOf (applicationEvents false a)) := by
  have hreports := Combines.flatMap fun r (_ : r ∈ a.reports) => combines_report r
  have hclose := hreports.append (Combines.nil.items kind_ne_reportCount_of_closeCollection)
  have hopen := hclose.items (kind_ne_reportCount_of_openCollection a.usage .application)
  simp only [List.append_nil] at hopen
  simp only [applicationEvents, itemsOf_append, itemsOf_flatMap, List.append_assoc]
  exact hopen

theorem combines_applications (d : Descriptor) :
    Combines d.blocks (itemsOf (d.applications.flatMap (applicationEvents true)))
      (itemsOf (d.applications.flatMap (applicationEvents false))) := by
  rw [Descriptor.blocks, Descriptor.reports, List.flatMap_assoc, itemsOf_flatMap, itemsOf_flatMap]
  exact Combines.flatMap fun a _ => combines_application a

end Emission

end ReportDescriptor
