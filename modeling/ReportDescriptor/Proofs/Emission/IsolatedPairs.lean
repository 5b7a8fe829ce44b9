import ReportDescriptor.Proofs.Emission.ElidedLength
import ReportDescriptor.Proofs.Layout.Fields

/-!
# Isolated pairs

Under elision two fields that share a main item can make a descriptor longer, if they stand between
fields of one value each: the main item that is saved takes two bytes, but the count of two takes
two bytes, and the count of one behind it two more. Nothing else makes optimization cost bytes: more
than two fields save more, and next to another block that is shared the counts differ anyway.
-/

namespace ReportDescriptor

namespace Emission

open ShortItem

/-- The blocks of two fields whose neighbours are both written with one value. -/
def isolatedPairs : List (List Leaf) → Nat
  | a :: b :: c :: bs =>
    (if values a = 1 ∧ b.length = 2 ∧ values c = 1 then 1 else 0) + isolatedPairs (b :: c :: bs)
  | _ => 0

theorem isolatedPairs_le_cons (b : List Leaf) (bs : List (List Leaf)) :
    isolatedPairs bs ≤ isolatedPairs (b :: bs) := by
  cases bs with
  | nil => exact Nat.le_refl _
  | cons c bs =>
    cases bs with
    | nil => exact Nat.le_refl _
    | cons d bs => exact Nat.le_add_left _ _

theorem isolatedPairs_of_isolated {a b c : List Leaf} (ha : values a = 1) (hb : b.length = 2)
    (hc : values c = 1) (bs : List (List Leaf)) :
    isolatedPairs (a :: b :: c :: bs) = 1 + isolatedPairs (b :: c :: bs) := by
  rw [isolatedPairs, if_pos ⟨ha, hb, hc⟩]

def countValue (n : Nat) : ItemValue :=
  .unsigned (UInt32.ofNat n)

/-- The bytes of a count where `last` is in force. -/
def countCost (last : Option ItemValue) (n : Nat) : Nat :=
  if last = some (countValue n) then 0 else countLength n

/-- The bytes of counts that are left out where they repeat the one before. -/
def countCosts (last : Option ItemValue) : List Nat → Nat
  | [] => 0
  | n :: ns => countCost last n + countCosts (some (countValue n)) ns

theorem countCost_le (last : Option ItemValue) (n : Nat) : countCost last n ≤ countLength n := by
  rw [countCost]
  split
  · exact Nat.zero_le _
  · exact Nat.le_refl _

theorem countCost_self (n : Nat) : countCost (some (countValue n)) n = 0 :=
  if_pos rfl

theorem countCost_of_ne {last : Option ItemValue} {n : Nat} (h : last ≠ some (countValue n)) :
    countCost last n = countLength n :=
  if_neg h

theorem costs_counts (g : Globals) (ns : List Nat) :
    g.costs (ns.map fun n => .ofNat .reportCount n) = countCosts (g .reportCount) ns := by
  induction ns generalizing g with
  | nil => rfl
  | cons n ns ih =>
    have hafter : g.after (.ofNat .reportCount n) .reportCount = some (countValue n) := by
      rw [Globals.after_of_globalItem rfl]
      exact if_pos rfl
    have hcost : g.cost (.ofNat .reportCount n) = countCost (g .reportCount) n := by
      rw [Globals.cost, countCost]
      exact if_congr (and_iff_right rfl) rfl rfl
    rw [List.map_cons, Globals.costs_cons, ih, hafter, hcost, countCosts]

/-- The counts of `bs` when their fields share, where `last` is in force before them. -/
def together (last : Option ItemValue) (bs : List (List Leaf)) : Nat :=
  countCosts last (bs.map values)

def apart (last : Option ItemValue) (bs : List (List Leaf)) : Nat :=
  countCosts last (bs.flatten.map fun l => l.count.value)

section

variable {bs : List (List Leaf)} (last : Option ItemValue)

theorem together_cons (b : List Leaf) : together last (b :: bs) =
    countCost last (values b) + together (some (countValue (values b))) bs := rfl

theorem apart_alone (l : Leaf) : apart last ([l] :: bs) =
    countCost last l.count.value + apart (some (countValue l.count.value)) bs := rfl

theorem apart_ones {b : List Leaf} (hb : ∀ l ∈ b, l.count.value = 1) :
    apart (some (countValue 1)) (b :: bs) = apart (some (countValue 1)) bs := by
  induction b with
  | nil => rfl
  | cons l b ih =>
    rw [List.forall_mem_cons] at hb
    have hrest := ih hb.2
    rw [apart, List.flatten_cons, List.map_append] at hrest ⊢
    rw [List.map_cons, List.cons_append, countCosts, hb.1, countCost_self, Nat.zero_add, hrest]

theorem apart_shared {b : List Leaf} (hne : b ≠ []) (hb : ∀ l ∈ b, l.count.value = 1) :
    apart last (b :: bs) = countCost last 1 + apart (some (countValue 1)) bs := by
  cases b with
  | nil => exact absurd rfl hne
  | cons l b =>
    rw [List.forall_mem_cons] at hb
    rw [← apart_ones hb.2, ← hb.1]
    rfl

end

/-- How much longer the counts of `bs` can be when their fields share. It depends on what stands
before `bs`, and on the counts that are in force there. -/
structure Bounded (bs : List (List Leaf)) : Prop where
  same : ∀ (a : List Leaf) (last : Option ItemValue),
    (last = some (countValue 1) → values a = 1) →
    together last bs ≤ apart last bs + total saving bs + 2 * isolatedPairs (a :: bs)
  behind_isolated : ∀ a b : List Leaf, values a = 1 → b.length = 2 →
    together (some (countValue 2)) bs ≤
      apart (some (countValue 1)) bs + total saving bs + 2 * isolatedPairs (a :: b :: bs)
  behind_saving : ∀ (b : List Leaf) (last : Option ItemValue),
    together last bs ≤
      apart (some (countValue 1)) bs + total saving bs + 2 * isolatedPairs (b :: bs) + 2

namespace Bounded

variable {bs : List (List Leaf)}

theorem nil : Bounded [] where
  same _ _ _ := Nat.zero_le _
  behind_isolated _ _ _ _ := Nat.zero_le _
  behind_saving _ _ := Nat.zero_le _

theorem countValue_one_ne {n : Nat} (h : n ≤ 65535) (hne : n ≠ 1) :
    some (countValue n) ≠ some (countValue 1) := by
  intro heq
  have hvalue := congrArg UInt32.toNat (ItemValue.unsigned.inj (Option.some.inj heq))
  rw [UInt32.toNat_ofNat', UInt32.toNat_ofNat'] at hvalue
  omega

theorem alone (h : Bounded bs) (l : Leaf) : Bounded ([l] :: bs) := by
  have hvalues : values [l] = l.count.value := rfl
  have hsaving : saving [l] = 0 := rfl
  have hrest := h.same [l] (some (countValue l.count.value)) fun heq => by
    by_contra hne
    exact countValue_one_ne l.count.le_max hne heq
  constructor
  case same =>
    intro a last ha
    have hmono := isolatedPairs_le_cons a ([l] :: bs)
    rw [together_cons, apart_alone, hvalues, total_cons, hsaving]
    omega
  case behind_isolated =>
    intro a b ha hb
    have hmono := isolatedPairs_le_cons a (b :: [l] :: bs)
    have hmono' := isolatedPairs_le_cons b ([l] :: bs)
    have hcost := countCost_le (some (countValue 2)) l.count.value
    rw [together_cons, apart_alone, hvalues, total_cons, hsaving]
    by_cases hone : l.count.value = 1
    · -- The count of one has to be stated again, behind a pair that is isolated now.
      have hisolated := isolatedPairs_of_isolated ha hb (hvalues.trans hone) bs
      rw [hone, countLength_one] at hcost
      rw [hone] at hrest ⊢
      omega
    · rw [countCost_of_ne (countValue_one_ne l.count.le_max hone).symm]
      omega
  case behind_saving =>
    intro b last
    have hmono := isolatedPairs_le_cons b ([l] :: bs)
    have hcost := countCost_le last l.count.value
    rw [together_cons, apart_alone, hvalues, total_cons, hsaving]
    by_cases hone : l.count.value = 1
    · -- Here too, but the block before has saved the two bytes.
      rw [hone, countLength_one] at hcost
      rw [hone] at hrest ⊢
      omega
    · rw [countCost_of_ne (countValue_one_ne l.count.le_max hone).symm]
      omega

theorem shared (h : Bounded bs) {b : List Leaf} (hlength : 2 ≤ b.length)
    (hb : ∀ l ∈ b, l.count.value = 1) : Bounded (b :: bs) := by
  have hvalues := values_eq_length hb
  have hsaving : saving b = 2 * (b.length - 1) := rfl
  have hrest := h.behind_saving b (some (countValue b.length))
  have hne : b ≠ [] := List.length_pos_iff.1 (by omega)
  constructor
  case same =>
    intro a last ha
    have hmono := isolatedPairs_le_cons a (b :: bs)
    have hcost := countCost_le last b.length
    rw [together_cons, apart_shared last hne hb, hvalues, total_cons, hsaving]
    by_cases hpair : b.length = 2
    · rw [hpair, countLength_of_lt (by omega)] at hcost
      by_cases hlast : last = some (countValue 1)
      · -- The fields would not state their counts either, so nothing is left for what follows.
        have hisolated := h.behind_isolated a b (ha hlast) hpair
        rw [hpair]
        omega
      · rw [countCost_of_ne hlast, countLength_one, hpair]
        rw [hpair] at hrest
        omega
    · have hlong := countLength_add_two_le (n := b.length) (by omega)
      omega
  case behind_isolated =>
    intro a b' ha hb'
    have hmono := isolatedPairs_le_cons a (b' :: b :: bs)
    have hmono' := isolatedPairs_le_cons b' (b :: bs)
    have hcost := countCost_le (some (countValue 2)) b.length
    rw [together_cons, apart_shared _ hne hb, hvalues, total_cons, hsaving, countCost_self]
    by_cases hpair : b.length = 2
    · -- A second pair has the count of the first.
      rw [hpair] at hrest
      rw [hpair, countCost_self]
      omega
    · have hlong := countLength_add_two_le (n := b.length) (by omega)
      omega
  case behind_saving =>
    intro b' last
    have hmono := isolatedPairs_le_cons b' (b :: bs)
    have hcost := countCost_le last b.length
    have hlong := countLength_le hlength
    rw [together_cons, apart_shared _ hne hb, hvalues, total_cons, hsaving, countCost_self]
    omega

theorem of_forall_block
    (h : ∀ b ∈ bs, (∃ l, b = [l]) ∨ 2 ≤ b.length ∧ ∀ l ∈ b, l.count.value = 1) : Bounded bs := by
  induction bs with
  | nil => exact nil
  | cons b bs ih =>
    rw [List.forall_mem_cons] at h
    rcases h.1 with ⟨l, rfl⟩ | ⟨hlength, hb⟩
    · exact (ih h.2).alone l
    · exact (ih h.2).shared hlength hb

end Bounded

theorem Combines.total_dropRedundant_le {bs : List (List Leaf)} {is js : List ShortItem}
    (h : Combines bs is js) (his : Stackless is) (hjs : Stackless js) :
    total byteLength (GlobalState.dropRedundant {} is) ≤
      total byteLength (GlobalState.dropRedundant {} js) + 2 * isolatedPairs bs := by
  have hfirst : isolatedPairs ([] :: bs) = isolatedPairs bs := by
    cases bs with
    | nil => rfl
    | cons b bs =>
      cases bs with
      | nil => rfl
      | cons c bs => exact Nat.zero_add _
  have hcounts := (Bounded.of_forall_block h.forall_block).same [] none fun h => nomatch h
  have hfixed := h.total_add_saving_le total_fixedLength_run_le
  have hsettings := h.costs_settingItems (GlobalState.current {}).get?
  obtain ⟨htogether, hapart⟩ := h.countItems_eq
  have htogether' : countItems is = (bs.map values).map fun n => .ofNat .reportCount n := by
    rw [htogether, List.map_map]
    rfl
  have hapart' : countItems js =
      (bs.flatten.map fun l => l.count.value).map fun n => .ofNat .reportCount n := by
    rw [hapart, List.map_map]
    rfl
  rw [GlobalState.total_dropRedundant _ his, GlobalState.total_dropRedundant _ hjs, costs_eq _ is,
    costs_eq _ js, htogether', hapart', costs_counts, costs_counts, hsettings,
    GlobalTable.get?_empty, ← together, ← apart]
  omega

end Emission

namespace Descriptor

open Emission

/-- With elision, optimization costs at most two bytes for each isolated pair. -/
theorem length_toBytes_le_of_elide (d : Descriptor) (packing : Packing) :
    ∃ apart together, (d.toBytes ⟨packing, false, true⟩).result = .ok apart ∧
      (d.toBytes ⟨packing, true, true⟩).result = .ok together ∧
      together.length ≤ apart.length + 2 * isolatedPairs d.blocks := by
  refine ⟨_, _, result_toBytes (d.result_items ⟨packing, false, true⟩),
    result_toBytes (d.result_items ⟨packing, true, true⟩), ?_⟩
  rw [ShortItem.length_flatMap_toBytes, ShortItem.length_flatMap_toBytes]
  exact (combines_applications d).total_dropRedundant_le (stackless_itemsOf d true)
    (stackless_itemsOf d false)

/-- The bound is attained. -/
theorem length_toBytes_pairDevice :
    (Report.build .input 1 Sample.pair).result = .ok ⟨.input, 1, Sample.pair⟩ ∧
      Descriptor.build Sample.pairDevice.applications = .ok Sample.pairDevice ∧
      ∃ apart together, (Sample.pairDevice.toBytes ⟨.tight, false, true⟩).result = .ok apart ∧
        (Sample.pairDevice.toBytes ⟨.tight, true, true⟩).result = .ok together ∧
        ¬together.length ≤ apart.length ∧
        together.length = apart.length + 2 * isolatedPairs Sample.pairDevice.blocks :=
  ⟨rfl, rfl, _, _, rfl, rfl, by decide, rfl⟩

end Descriptor

end ReportDescriptor
