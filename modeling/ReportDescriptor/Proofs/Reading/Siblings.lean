import ReportDescriptor.Proofs.Emission.Blocks
import ReportDescriptor.Proofs.Reading.Reads

/-!
# Reading siblings

Variables that share a main item are read as so many fields, each with its own usage. So with and
without such sharing the items of a report are read as the same fields, as long as the number of
those that share is a word.
-/

namespace ReportDescriptor

namespace Emission

open FieldForest

variable {r : ReportKind} {id : Nat} {is : List ShortItem} {f : FieldForest}

/-- A single value of the variable is read like a value of the field. -/
structure Shares (f : DataField) (w : Variable) : Prop where
  count : w.count = .one
  adjusted : w.field.size.adjusted = f.size.adjusted
  attributes : w.field.attributes = f.attributes
  flags : w.field.flags = f.flags

theorem shares_of_combinableWith {v w : Variable} (h : v.combinableWith w = true) :
    Shares v.field v ∧ Shares v.field w ∧ w.usage.page = v.usage.page := by
  simp only [Variable.combinableWith, Bool.and_eq_true, decide_eq_true_eq] at h
  obtain ⟨⟨⟨⟨hv, hw⟩, hpage⟩, hadjusted⟩, hfield⟩ := h
  refine ⟨⟨hv, rfl, rfl, rfl⟩, ⟨hw, hadjusted.symm, ?_, ?_⟩, hpage.symm⟩
  · rw [← hfield]
    rfl
  · rw [← hfield]

theorem Shares.bits_single {f : DataField} {w : Variable} (h : Shares f w) :
    (Leaf.single w).bits = f.size.adjusted := by
  rw [Leaf.bits, Leaf.count, h.count, Leaf.size, h.adjusted]
  exact Nat.one_mul _

theorem Shares.slots_single {f : DataField} {w : Variable} (h : Shares f w) (start : Nat)
    (a : Attributes) :
    (Leaf.single w).slots r id start a =
      [fieldSlot r id start f .variables (fun _ => [w.usage.toUsage]) 0] := by
  rw [Leaf.slots, Leaf.count, h.count, Leaf.size, h.adjusted, Leaf.attributesAfter, Leaf.data?,
    Option.elim_some, h.attributes, Leaf.flags, Leaf.data?, Option.elim_some, h.flags]
  rfl

/-- Variables that lie one behind the other are read as so many values of one field. -/
theorem scanList_slots_eq {f : DataField} {ws : List Variable} (h : ∀ w ∈ ws, Shares f w)
    (start : Nat) (a : Attributes) (u : Usage) :
    Forest.scanList FieldForest.advance (fun p l => l.slots r id p.1 p.2) (start, a)
        (ws.map Leaf.single) =
      (List.range ws.length).map (fieldSlot r id start f .variables fun i =>
        [(ws.map fun w => w.usage.toUsage).getD i u]) := by
  induction ws generalizing start a with
  | nil => rfl
  | cons w ws ih =>
    have hw := h w List.mem_cons_self
    rw [List.map_cons, Forest.scanList, hw.slots_single, FieldForest.advance, hw.bits_single,
      ih (fun w hw => h w (List.mem_cons_of_mem _ hw)), List.length_cons,
      List.range_succ_eq_map, List.map_cons, List.map_map, List.singleton_append]
    refine List.cons_eq_cons.2 ⟨rfl, List.map_congr_left fun i _ => ?_⟩
    simp only [Function.comp_apply, fieldSlot, List.map_cons, List.getD_cons_succ,
      Nat.succ_mul, Nat.add_assoc, Nat.add_comm f.size.adjusted]

/-- The members of a run share the field of the first. -/
def Run.IsUniform (q : Run) : Prop :=
  ∀ v ∈ q.others, q.first.combinableWith v = true

def Run.leaves (q : Run) : List Leaf :=
  q.members.map Leaf.single

theorem Run.IsUniform.pairwise {q : Run} (hq : q.IsUniform) :
    q.members.Pairwise fun v w => v.combinableWith w = true := by
  rw [Run.members, List.pairwise_cons]
  refine ⟨fun w hw => hq w (List.mem_reverse.1 hw), List.pairwise_of_forall_mem_list ?_⟩
  intro v hv w hw
  exact Variable.combinableWith_trans
    (Variable.combinableWith_symm (hq v (List.mem_reverse.1 hv))) (hq w (List.mem_reverse.1 hw))

theorem Run.IsUniform.not_combinableWith {q : Run} (hq : q.IsUniform) {v : Variable}
    (hv : ¬q.first.combinableWith v = true) : ∀ w ∈ q.members, w.combinableWith v = false := by
  intro w hw
  rw [Bool.eq_false_iff]
  intro hwv
  rcases List.mem_cons.1 hw with rfl | hw
  · exact hv hwv
  · exact hv (Variable.combinableWith_trans (hq w (List.mem_reverse.1 hw)) hwv)

theorem bits_leaves_of_shares {f : DataField} {ws : List Variable} (h : ∀ w ∈ ws, Shares f w) :
    total Leaf.bits (ws.map Leaf.single) = ws.length * f.size.adjusted := by
  induction ws with
  | nil => simp
  | cons w ws ih =>
    have hw := h w List.mem_cons_self
    rw [List.map_cons, total_cons, ih fun w hw => h w (List.mem_cons_of_mem _ hw),
      hw.bits_single, List.length_cons, Nat.succ_mul, Nat.add_comm]

theorem lastAttributes_of_shares {f : DataField} {ws : List Variable}
    (h : ∀ w ∈ ws, Shares f w) (hne : ws ≠ []) (a : Attributes) :
    lastAttributes a (ws.map Leaf.single) = f.attributes := by
  induction ws generalizing a with
  | nil => exact absurd rfl hne
  | cons w ws ih =>
    have hw := h w List.mem_cons_self
    cases ws with
    | nil => exact hw.attributes
    | cons w' ws =>
      exact ih (fun w hw => h w (List.mem_cons_of_mem _ hw)) (List.cons_ne_nil _ _) _

/-- The shared main item of a run is read as its members, each with its own usage. -/
theorem reads_run {q : Run} (hq : q.IsUniform) (hlen : q.leaves.length < UInt32.size) :
    Reads r id (itemsOf (q.events (some r))) (.prepend q.leaves .nil) := by
  rw [Run.leaves, List.length_map] at hlen
  by_cases hothers : q.others = []
  · have hevents : q.events (some r) = leafEvents (some r) (.single q.first) := by
      rw [Run.events, hothers]
      rfl
    have hleaves : q.leaves = [.single q.first] := by
      rw [Run.leaves, Run.members, hothers]
      rfl
    rw [hevents, hleaves]
    exact reads_leaf (.single q.first)
  · intro s hlocals hid
    have hne : q.others.reverse ≠ [] := fun h => hothers (List.reverse_eq_nil_iff.1 h)
    obtain ⟨v, hv⟩ := List.exists_mem_of_ne_nil _ hothers
    have hshares : ∀ w ∈ q.members, Shares q.first.field w := by
      intro w hw
      rcases List.mem_cons.1 hw with rfl | hw
      · exact (shares_of_combinableWith (hq v hv)).1
      · exact (shares_of_combinableWith (hq w (List.mem_reverse.1 hw))).2.1
    have hpages : ∀ u ∈ q.others.reverse.map Variable.usage, u.page = q.first.usage.page := by
      intro u hu
      obtain ⟨w, hw, rfl⟩ := List.mem_map.1 hu
      exact (shares_of_combinableWith (hq w (List.mem_reverse.1 hw))).2.2
    have hus : ∀ i ∈ usageItems (q.members.map Variable.usage), IsUsageItem i := fun _ =>
      isUsageItem_usageItems
    have husages (i : Nat) : declaredUsages s.globals (usageItems (q.members.map Variable.usage))
        .variables i = [(q.members.map fun w => w.usage.toUsage).getD i
          ((q.others.reverse.map fun w => w.usage.toUsage).getLastD q.first.usage.toUsage)] := by
      have hdeclared := declaredUsages_usageItems s.globals hpages i
      rwa [← List.map_cons, List.map_map, List.map_map] at hdeclared
    refine ⟨s.globals.afterAll (usageItems (q.members.map Variable.usage) ++
      globalItems q.first.field q.members.length), ?_,
      Globals.unsigned?_congr (reportId_afterAll hus _ _), ?_⟩
    · rw [Run.events_of_others_ne_nil hothers, itemsOf, List.filterMap_cons_none rfl,
        ← itemsOf, itemsOf_dataEvents, run?_dataItems hlocals hus r _ hlen, funext husages, hid]
      simp only [FieldForest.reading, Forest.scan_prepend_nil, Run.leaves, FieldForest.bits,
        Forest.leaves_prepend, Forest.leaves_nil, List.append_nil, bits_leaves_of_shares hshares]
      rw [scanList_slots_eq hshares _ _
        ((q.others.reverse.map fun w => w.usage.toUsage).getLastD q.first.usage.toUsage)]
    · rw [Globals.afterAll_append, attributes_afterAll_globalItems, Forest.leaves_prepend,
        Forest.leaves_nil, List.append_nil, Run.leaves,
        lastAttributes_of_shares hshares (List.cons_ne_nil _ _)]

/-- The fields that have been met but not yet written. -/
def pending (run : Option Run) : List Leaf :=
  run.elim [] Run.leaves

@[simp] theorem pending_none : pending none = [] := rfl

@[simp] theorem pending_first (v : Variable) : pending (some ⟨v, []⟩) = [.single v] := rfl

theorem pending_join (q : Run) (v : Variable) :
    pending (some { q with others := v :: q.others }) = pending (some q) ++ [.single v] := by
  simp only [pending, Option.elim_some, Run.leaves, Run.members, List.reverse_cons,
    List.map_cons, List.map_append, List.map_nil, List.cons_append]

theorem forall_mem_first (v : Variable) : ∀ q ∈ some (Run.mk v []), q.IsUniform :=
  fun _ h => Option.some.inj h ▸ List.forall_mem_nil _

theorem forall_mem_none : ∀ q ∈ (none : Option Run), q.IsUniform :=
  fun _ h => nomatch h

/-- The pending fields are a block of their own before whatever does not join them. -/
theorem blocks_pending {run : Option Run} (hrun : ∀ q ∈ run, q.IsUniform)
    (hend : ∀ m ∈ first? f, ∀ q ∈ run, ∀ w ∈ q.members, (Leaf.single w).joins m = false) :
    blocks (.prepend (pending run) f) = run.toList.map Run.leaves ++ blocks f := by
  cases run with
  | none => rfl
  | some q => exact blocks_prepend (hrun q rfl).pairwise fun m hm => hend m hm q rfl

theorem blocks_leaf_of_not_single {l : Leaf} (h : ∀ v, l ≠ .single v) (f : FieldForest) :
    blocks (.leaf l f) = [l] :: blocks f := by
  refine blocks_leaf_of_forall fun m _ => Bool.eq_false_iff.2 fun hjoins => ?_
  obtain ⟨v, w, hl, -⟩ := Leaf.joins_iff.1 hjoins
  exact h v hl

theorem not_joins_of_not_single {l m : Leaf} (h : ∀ v, m ≠ .single v) : l.joins m = false := by
  refine Bool.eq_false_iff.2 fun hjoins => ?_
  obtain ⟨v, w, -, hm, -⟩ := Leaf.joins_iff.1 hjoins
  exact h w hm

/-- What holds of all blocks holds of the pending one and of those behind it. -/
theorem forall_mem_blocks_pending {P : List Leaf → Prop} {run : Option Run} {optimize : Prop}
    (hrun : ∀ q ∈ run, q.IsUniform)
    (hend : ∀ m ∈ first? f, ∀ q ∈ run, ∀ w ∈ q.members, (Leaf.single w).joins m = false)
    (h : optimize ∨ run ≠ none → ∀ b ∈ blocks (.prepend (pending run) f), P b) :
    (∀ q ∈ run, P q.leaves) ∧ (optimize → ∀ b ∈ blocks f, P b) := by
  rw [blocks_pending hrun hend] at h
  constructor
  · rintro q rfl
    exact h (.inr (Option.some_ne_none q)) _ (List.mem_append_left _ List.mem_cons_self)
  · exact fun hoptimize b hb => h (.inl hoptimize) b (List.mem_append_right _ hb)

theorem reads_pending {run : Option Run} (hrun : ∀ q ∈ run, q.IsUniform)
    (hlen : ∀ q ∈ run, q.leaves.length < UInt32.size) :
    Reads r id (itemsOf (run.elim [] (Run.events (some r)))) (.prepend (pending run) .nil) := by
  cases run with
  | none => exact reads_nil
  | some q => exact reads_run (hrun q rfl) (hlen q rfl)

/-- The pending fields are written before whatever does not join them. -/
theorem Reads.pending_append (h : Reads r id is f) {run : Option Run}
    (hrun : ∀ q ∈ run, q.IsUniform) (hlen : ∀ q ∈ run, q.leaves.length < UInt32.size) :
    Reads r id (itemsOf (run.elim [] (Run.events (some r))) ++ is) (.prepend (pending run) f) := by
  have hfirst : Reads r id (itemsOf (run.elim [] (Run.events (some r))))
      (.prepend (pending run) .nil) := reads_pending hrun hlen
  have happ := hfirst.append h
  rwa [Forest.prepend_append_forest, Forest.nil_append] at happ

/-- With and without optimization the siblings are read as they are, behind the pending ones.
Only with optimization do fields come to share an item, whose count then needs a word. -/
theorem reads_siblings (optimize : Bool) {run : Option Run} (hrun : ∀ q ∈ run, q.IsUniform)
    {f : FieldForest} (hlen : optimize = true ∨ run ≠ none →
      ∀ b ∈ blocks (.prepend (pending run) f), b.length < UInt32.size) :
    Reads r id (itemsOf (siblingEvents optimize (some r) run f)) (.prepend (pending run) f) := by
  -- Along the writer's own cases: whatever does not join the pending fields is read behind them.
  fun_induction siblingEvents optimize (some r) run f with
  | case1 run =>
    have hend : ∀ m ∈ first? .nil, ∀ q ∈ run, ∀ w ∈ q.members, (Leaf.single w).joins m = false :=
      fun m hm => absurd hm (Option.not_mem_none m)
    exact reads_pending hrun (forall_mem_blocks_pending hrun hend hlen).1
  | case2 v rest hoptimize ih => exact ih (forall_mem_first v) fun _ => hlen (.inl hoptimize)
  | case3 v rest hoptimize ih =>
    have hrest := ih forall_mem_none fun h =>
      absurd (h.resolve_right fun h => h rfl) hoptimize
    rw [itemsOf_append]
    exact (reads_leaf (.single v)).append hrest
  | case4 v rest q hjoins ih =>
    have hmember := ih
      (fun _ h => Option.some.inj h ▸ List.forall_mem_cons.2 ⟨hjoins, hrun q rfl⟩)
      fun _ => by
        rw [pending_join, Forest.prepend_append]
        exact hlen (.inr (Option.some_ne_none q))
    rw [pending_join, Forest.prepend_append] at hmember
    exact hmember
  | case5 v rest q hjoins ih =>
    have hend : ∀ m ∈ first? (.leaf (.single v) rest), ∀ q' ∈ some q, ∀ w ∈ q'.members,
        (Leaf.single w).joins m = false := by
      intro m hm q' hq' w hw
      obtain rfl := Option.some.inj hm
      obtain rfl := Option.some.inj hq'
      exact (hrun q rfl).not_combinableWith hjoins w hw
    have hblocks := hlen (.inr (Option.some_ne_none q))
    obtain ⟨hpending, hrest⟩ := forall_mem_blocks_pending hrun hend fun _ => hblocks
    have hfirst := ih (forall_mem_first v) fun _ => hrest trivial
    rw [pending_first, Forest.prepend_cons, Forest.prepend_nil] at hfirst
    rw [itemsOf_append]
    exact hfirst.pending_append hrun hpending
  | case6 run l rest hother ih =>
    have hend : ∀ m ∈ first? (.leaf l rest), ∀ q ∈ run, ∀ w ∈ q.members,
        (Leaf.single w).joins m = false := by
      intro m hm q _ w _
      obtain rfl := Option.some.inj hm
      exact not_joins_of_not_single hother
    obtain ⟨hpending, hblocks⟩ := forall_mem_blocks_pending hrun hend hlen
    rw [blocks_leaf_of_not_single hother, List.forall_mem_cons] at hblocks
    have hrest := ih forall_mem_none fun h => (hblocks (h.resolve_right fun h => h rfl)).2
    have hleaf := (reads_leaf l).append hrest
    rw [itemsOf_append, itemsOf_append, List.append_assoc]
    exact hleaf.pending_append hrun hpending
  | case7 run c children rest ihc ihr =>
    have hend : ∀ m ∈ first? (.node c children rest), ∀ q ∈ run, ∀ w ∈ q.members,
        (Leaf.single w).joins m = false := fun m hm => absurd hm (Option.not_mem_none m)
    obtain ⟨hpending, hblocks⟩ := forall_mem_blocks_pending hrun hend hlen
    rw [blocks, List.forall_mem_append] at hblocks
    have hchildren := ihc forall_mem_none fun h => (hblocks (h.resolve_right fun h => h rfl)).1
    have hrest := ihr forall_mem_none fun h => (hblocks (h.resolve_right fun h => h rfl)).2
    have hnode := (hchildren.node c).append hrest
    simp only [itemsOf_append, List.append_assoc] at hnode ⊢
    exact hnode.pending_append hrun hpending

end Emission

end ReportDescriptor
