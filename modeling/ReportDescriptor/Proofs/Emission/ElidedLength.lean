import ReportDescriptor.Proofs.Emission.Length
import ReportDescriptor.Proofs.Reading.Globals

/-!
# Lengths under elision

With elision a global item takes bytes only where it changes something. Sharing a main item leaves
all globals as they are but the count. So there is one case where it makes a descriptor longer: two
fields that share between fields of one value each save a main item of two bytes, while their count
takes two bytes, and the count behind them two more.
-/

namespace ReportDescriptor

open ShortItem

namespace Globals

/-- The bytes of an item in which elision leaves out what is in force. -/
def cost (g : Globals) (i : ShortItem) : Nat :=
  if i.kind.category = .globalItem ∧ g i.kind = some i.value then 0 else i.byteLength

def costs (g : Globals) : List ShortItem → Nat
  | [] => 0
  | i :: is => g.cost i + costs (g.after i) is

variable {g h : Globals} {i : ShortItem} {is js : List ShortItem}

@[simp] theorem costs_nil (g : Globals) : g.costs [] = 0 := rfl

@[simp] theorem costs_cons (g : Globals) (i : ShortItem) (is : List ShortItem) :
    g.costs (i :: is) = g.cost i + (g.after i).costs is := rfl

@[simp] theorem costs_append (g : Globals) (is js : List ShortItem) :
    g.costs (is ++ js) = g.costs is + (g.afterAll is).costs js := by
  induction is generalizing g with
  | nil => simp
  | cons i is ih => rw [List.cons_append, costs_cons, ih, costs_cons, afterAll_cons, Nat.add_assoc]

theorem costs_congr (hgh : ∀ i ∈ is, g i.kind = h i.kind) : g.costs is = h.costs is := by
  induction is generalizing g h with
  | nil => rfl
  | cons i is ih =>
    rw [List.forall_mem_cons] at hgh
    have hafter : ∀ j ∈ is, g.after i j.kind = h.after i j.kind := by
      intro j hj
      by_cases hi : i.kind.category = .globalItem
      · rw [after_of_globalItem hi, after_of_globalItem hi, hgh.2 j hj]
      · rw [after_of_ne_globalItem g hi, after_of_ne_globalItem h hi, hgh.2 j hj]
    rw [costs_cons, costs_cons, ih hafter, cost, cost, hgh.1]

theorem costs_after (hi : ∀ j ∈ is, j.kind ≠ i.kind) : (g.after i).costs is = g.costs is := by
  refine costs_congr fun j hj => ?_
  by_cases hglobal : i.kind.category = .globalItem
  · rw [after_of_globalItem hglobal, if_neg (hi j hj)]
  · rw [after_of_ne_globalItem g hglobal]

/-- What is in force already costs nothing and changes nothing. -/
theorem costs_of_inForce (hglobal : ∀ i ∈ is, i.kind.category = .globalItem)
    (hforce : ∀ i ∈ is, g i.kind = some i.value) : g.costs is = 0 ∧ g.afterAll is = g := by
  induction is with
  | nil => exact ⟨rfl, rfl⟩
  | cons i is ih =>
    rw [List.forall_mem_cons] at hglobal hforce
    rw [costs_cons, afterAll_cons, after_of_eq_some hforce.1, cost,
      if_pos ⟨hglobal.1, hforce.1⟩, Nat.zero_add]
    exact ih hglobal.2 hforce.2

theorem inForce_afterAll (hglobal : ∀ i ∈ is, i.kind.category = .globalItem)
    (hkinds : (is.map ShortItem.kind).Nodup) :
    ∀ i ∈ is, g.afterAll is i.kind = some i.value := by
  induction is generalizing g with
  | nil => exact List.forall_mem_nil _
  | cons i is ih =>
    rw [List.forall_mem_cons] at hglobal
    rw [List.map_cons, List.nodup_cons] at hkinds
    rw [List.forall_mem_cons, afterAll_cons]
    refine ⟨?_, ih hglobal.2 hkinds.2⟩
    rw [afterAll_apply_of_forall_ne, after_of_globalItem hglobal.1, if_pos rfl]
    exact fun j hj hkind => hkinds.1 (hkind ▸ List.mem_map_of_mem hj)

end Globals

theorem GlobalState.total_dropRedundant (t : GlobalState) {is : List ShortItem}
    (his : Stackless is) :
    total byteLength (t.dropRedundant is) = Globals.costs t.current.get? is := by
  fun_induction dropRedundant t is with
  | case1 t => rfl
  | case2 t i is hred ih =>
    obtain ⟨-, hrest⟩ := List.forall_mem_cons.1 his
    obtain ⟨hglobal, -, -, hforce⟩ := isRedundant_iff.1 hred
    rw [Globals.costs_cons, Globals.after_of_eq_some hforce, Globals.cost,
      if_pos ⟨hglobal, hforce⟩, ih hrest, Nat.zero_add]
  | case3 t i is hred ih =>
    obtain ⟨hi, hrest⟩ := List.forall_mem_cons.1 his
    have hcost : ¬(i.kind.category = .globalItem ∧ t.current.get? i.kind = some i.value) :=
      fun h => hred (isRedundant_iff.2 ⟨h.1, hi.1, hi.2, h.2⟩)
    rw [total_cons, Globals.costs_cons, Globals.cost, if_neg hcost, ih hrest,
      get?_after hi.1 hi.2]

namespace Emission

/-- The bytes of an item that elision never leaves out. -/
def fixedLength (i : ShortItem) : Nat :=
  if i.kind.category = .globalItem then 0 else i.byteLength

/-- The global items but for counts. -/
def settingItems (is : List ShortItem) : List ShortItem :=
  is.filter fun i => i.kind.category = .globalItem ∧ i.kind ≠ .reportCount

@[simp] theorem settingItems_append (is js : List ShortItem) :
    settingItems (is ++ js) = settingItems is ++ settingItems js :=
  List.filter_append is js

theorem mem_settingItems {i : ShortItem} {is : List ShortItem} :
    i ∈ settingItems is ↔ i ∈ is ∧ i.kind.category = .globalItem ∧ i.kind ≠ .reportCount := by
  rw [settingItems, List.mem_filter, decide_eq_true_eq]

theorem settingItems_cons (i : ShortItem) (is : List ShortItem) : settingItems (i :: is) =
    if i.kind.category = .globalItem ∧ i.kind ≠ .reportCount then i :: settingItems is
    else settingItems is := by
  simp only [settingItems, List.filter_cons, decide_eq_true_eq]

/-- Counts are written where they differ from the last count, whatever stands between them. -/
theorem costs_eq (g : Globals) (is : List ShortItem) : g.costs is =
    total fixedLength is + g.costs (settingItems is) + g.costs (countItems is) := by
  induction is generalizing g with
  | nil => rfl
  | cons i is ih =>
    rw [Globals.costs_cons, ih, total_cons, fixedLength, settingItems_cons, countItems_cons]
    by_cases hglobal : i.kind.category = .globalItem
    · by_cases hcount : i.kind = .reportCount
      · have hsettings : (g.after i).costs (settingItems is) = g.costs (settingItems is) :=
          Globals.costs_after fun j hj => hcount ▸ (mem_settingItems.1 hj).2.2
        rw [if_pos hglobal, if_neg fun h => h.2 hcount, if_pos hcount, Globals.costs_cons,
          hsettings]
        omega
      · have hcounts : (g.after i).costs (countItems is) = g.costs (countItems is) :=
          Globals.costs_after fun j hj hkind => hcount (hkind ▸ (mem_countItems.1 hj).2)
        rw [if_pos hglobal, if_pos ⟨hglobal, hcount⟩, if_neg hcount, Globals.costs_cons, hcounts]
        omega
    · have hcount : i.kind ≠ .reportCount := fun h => hglobal (h ▸ rfl)
      rw [if_neg hglobal, if_neg fun h => hglobal h.1, if_neg hcount,
        Globals.after_of_ne_globalItem g hglobal, Globals.cost, if_neg fun h => hglobal h.1]
      omega

section Run

variable (r : ReportKind) {q : Run}

theorem settingItems_run (hothers : q.others ≠ []) :
    settingItems (itemsOf (q.events (some r))) = settingItems (q.common r) := by
  have husages : settingItems (q.members.map fun v => .ofNat .usage v.usage.id.toNat) = [] := by
    rw [settingItems, List.filter_eq_nil_iff]
    intro i hi
    obtain ⟨v, -, rfl⟩ := List.mem_map.1 hi
    exact Bool.false_ne_true
  rw [itemsOf_run r hothers, settingItems_cons, settingItems_append, husages, Run.common]
  cases r <;> rfl

theorem settingItems_members (hq : q.IsUniform) (hothers : q.others ≠ []) :
    settingItems (q.leaves.flatMap (leafItems r)) =
      q.leaves.flatMap fun _ => settingItems (q.common r) := by
  rw [settingItems, List.filter_flatMap]
  refine List.flatMap_congr fun l hl => ?_
  obtain ⟨v, hv, rfl⟩ := List.mem_map.1 hl
  rw [leafItems_member r hq hothers v hv, Run.common]
  cases r <;> rfl

theorem nodup_kinds_settingItems_common (q : Run) :
    ((settingItems (q.common r)).map ShortItem.kind).Nodup := by
  have hkinds : (settingItems (q.common r)).map ShortItem.kind =
      [.usagePage, .logicalMinimum, .logicalMaximum, .physicalMinimum, .physicalMaximum,
        .unitExponent, .unit, .reportSize] := by
    cases r <;> rfl
  rw [hkinds]
  decide

/-- The main items of all members but the first are saved. -/
theorem total_fixedLength_run_le (hq : q.IsUniform) (hothers : q.others ≠ []) :
    total fixedLength (itemsOf (q.events (some r))) + saving q.leaves ≤
      total fixedLength (q.leaves.flatMap (leafItems r)) := by
  have hrun := total_run_add r hothers fixedLength hq
  have hcount : ∀ n, fixedLength (.ofNat .reportCount n) = 0 := fun _ => rfl
  have hmain : 2 ≤ fixedLength (.main r (UInt32.ofNat
      (q.first.field.flags.word .variables))) := by
    cases r <;> exact two_le_byteLength_unsigned _ _
  have hcommon : 2 ≤ total fixedLength (q.common r) := by
    refine Nat.le_trans hmain (le_total_of_mem ?_)
    simp [Run.common]
  have hrepeated := Nat.mul_le_mul_left q.others.length hcommon
  rw [hcount, hcount] at hrun
  rw [saving, Run.length_leaves]
  omega

end Run

/-- To state settings once more costs nothing. -/
theorem costs_flatMap_append {g : Globals} {settings : List ShortItem}
    (hforce : g.costs settings = 0 ∧ g.afterAll settings = g) (ls : List Leaf)
    (is : List ShortItem) : g.costs ((ls.flatMap fun _ => settings) ++ is) = g.costs is := by
  induction ls with
  | nil => rfl
  | cons l ls ih =>
    rw [List.flatMap_cons, List.append_assoc, Globals.costs_append, hforce.1, hforce.2, ih,
      Nat.zero_add]

namespace Combines

variable {bs : List (List Leaf)} {is js : List ShortItem}

theorem costs_settingItems (h : Combines bs is js) (g : Globals) :
    g.costs (settingItems is) = g.costs (settingItems js) := by
  induction h generalizing g with
  | nil => rfl
  | @item bs is js i hi _ ih =>
    rw [settingItems_cons, settingItems_cons]
    split
    · rw [Globals.costs_cons, Globals.costs_cons, ih]
    · exact ih g
  | alone r l _ ih =>
    rw [settingItems_append, settingItems_append, Globals.costs_append, Globals.costs_append, ih]
  | @shared bs is js r q hq hothers _ ih =>
    have hforce := Globals.costs_of_inForce
      (fun i hi => (mem_settingItems.1 hi).2.1)
      (Globals.inForce_afterAll (g := g) (fun i hi => (mem_settingItems.1 hi).2.1)
        (nodup_kinds_settingItems_common r q))
    rw [settingItems_append, settingItems_append, settingItems_run r hothers,
      settingItems_members r hq hothers, Run.leaves, Run.members, List.map_cons,
      List.flatMap_cons, List.append_assoc, Globals.costs_append, Globals.costs_append,
      costs_flatMap_append hforce, ih]

end Combines

end Emission

end ReportDescriptor
