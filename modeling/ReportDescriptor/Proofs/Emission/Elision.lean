import ReportDescriptor.Proofs.Emission.Items
import ReportDescriptor.Proofs.Reading.Globals
import ReportDescriptor.Proofs.Sample

/-!
# Elision loses nothing

The items that remain after elision are the items before it without some global ones, each of
which states what is in force already. A reader has the same globals at every item that remains, and
the same put aside, and none of the items that remain could be left out as well. Of the elements of
a descriptor none puts anything aside, so that a reader need not care for that.
-/

namespace ReportDescriptor

/-- `kept` lists the items of `items` at the places `place`. Both lists are read with the globals
`s` in force and put aside at their beginning. -/
structure Elision (s : GlobalStack) (items kept : List ShortItem)
    (place : Fin kept.length → Fin items.length) : Prop where
  ascending : ∀ i j, i < j → place i < place j
  get_place : ∀ i, items.get (place i) = kept.get i
  restates_of_left_out : ∀ j, (∀ i, place i ≠ j) →
    (s.afterAll (items.take j)).Restates (items.get j)
  globals_eq : ∀ i : Fin kept.length,
    s.afterAll (kept.take i) = s.afterAll (items.take (place i))
  changes : ∀ i : Fin kept.length, ¬(s.afterAll (kept.take i)).Restates (kept.get i)

namespace Elision

variable {s : GlobalStack} {items kept : List ShortItem} {i : ShortItem}

theorem nil (s : GlobalStack) : Elision s [] [] id where
  ascending i := i.elim0
  get_place i := i.elim0
  restates_of_left_out j := j.elim0
  globals_eq i := i.elim0
  changes i := i.elim0

/-- An item that states again what is in force is left out. -/
theorem drop {place : Fin kept.length → Fin items.length} (h : Elision s items kept place)
    (hi : s.Restates i) : Elision s (i :: items) kept fun n => (place n).succ where
  ascending m n hmn := Fin.succ_lt_succ_iff.2 (h.ascending m n hmn)
  get_place n := h.get_place n
  restates_of_left_out j hj := by
    cases j using Fin.cases with
    | zero => exact hi
    | succ j =>
      rw [Fin.val_succ, List.take_succ_cons, GlobalStack.afterAll_cons, hi.after_eq]
      exact h.restates_of_left_out j fun n hn => hj n (congrArg Fin.succ hn)
  globals_eq n := by
    rw [Fin.val_succ, List.take_succ_cons, GlobalStack.afterAll_cons, hi.after_eq]
    exact h.globals_eq n
  changes n := h.changes n

/-- Any other item is kept at its place before the rest. -/
theorem keep {place : Fin kept.length → Fin items.length}
    (h : Elision (s.after i) items kept place) (hi : ¬s.Restates i) :
    Elision s (i :: items) (i :: kept)
      (Fin.cases ⟨0, Nat.zero_lt_succ _⟩ fun n => (place n).succ) where
  ascending m n hmn := by
    cases n using Fin.cases with
    | zero => exact absurd hmn (Fin.not_lt_zero m)
    | succ n =>
      cases m using Fin.cases with
      | zero => exact Fin.succ_pos (place n)
      | succ m => exact Fin.succ_lt_succ_iff.2 (h.ascending m n (Fin.succ_lt_succ_iff.1 hmn))
  get_place n := by
    cases n using Fin.cases with
    | zero => rfl
    | succ n => exact h.get_place n
  restates_of_left_out j hj := by
    cases j using Fin.cases with
    | zero => exact absurd rfl (hj ⟨0, Nat.zero_lt_succ _⟩)
    | succ j => exact h.restates_of_left_out j fun n hn => hj n.succ (congrArg Fin.succ hn)
  globals_eq n := by
    cases n using Fin.cases with
    | zero => rfl
    | succ n => exact h.globals_eq n
  changes n := by
    cases n using Fin.cases with
    | zero => exact hi
    | succ n => exact h.changes n

end Elision

namespace GlobalState

/-- Elision loses nothing of any list of items, whatever is put aside in it and brought back. -/
theorem exists_elision (s : GlobalState) (items : List ShortItem) :
    ∃ place, Elision s.values items (s.dropRedundant items) place := by
  induction items generalizing s with
  | nil => exact ⟨id, Elision.nil _⟩
  | cons i items ih =>
    rw [dropRedundant]
    by_cases hred : s.isRedundant i = true
    · rw [if_pos hred]
      obtain ⟨place, h⟩ := ih s
      exact ⟨_, h.drop (isRedundant_iff_restates.1 hred)⟩
    · rw [if_neg hred]
      obtain ⟨place, h⟩ := ih (s.after i)
      rw [values_after] at h
      exact ⟨_, h.keep fun hrestates => hred (isRedundant_iff_restates.2 hrestates)⟩

example :
    dropRedundant {} [.ofNat .usagePage 1, .ofNat .usagePage 1, .empty .push,
      .ofNat .usagePage 2, .empty .pop, .ofNat .usagePage 1, .ofNat .usage 1, .ofNat .usage 1] =
    [.ofNat .usagePage 1, .empty .push, .ofNat .usagePage 2, .empty .pop, .ofNat .usage 1,
      .ofNat .usage 1] := by
  decide

theorem dropRedundant_dropRedundant (s : GlobalState) (items : List ShortItem) :
    s.dropRedundant (s.dropRedundant items) = s.dropRedundant items := by
  induction items generalizing s with
  | nil => rfl
  | cons i items ih =>
    by_cases hred : s.isRedundant i = true
    · rw [dropRedundant, if_pos hred, ih]
    · rw [dropRedundant, if_neg hred, dropRedundant, if_neg hred, ih]

end GlobalState

namespace Emission

/-- Elision leaves out exactly the global items that tell a reader nothing new, across all
elements that are written one after the other. Nothing is put aside among them, so the last values
are all that a reader has to keep. -/
theorem emit_elide (packing : Packing) (optimize : Bool) (elements : List Element)
    (full : List ShortItem)
    (h : (emit ⟨packing, optimize, false⟩ elements).result = .ok full) :
    Stackless full ∧
      ∃ kept place, (emit ⟨packing, optimize, true⟩ elements).result = .ok kept ∧
        Elision .empty full kept place ∧
        (∀ i : Fin kept.length,
          Globals.empty.afterAll (kept.take i) = Globals.empty.afterAll (full.take (place i))) ∧
        GlobalState.dropRedundant {} kept = kept := by
  rw [result_emit] at h
  cases hitems : items (elements.flatMap (Element.events optimize)) with
  | error e =>
    rw [hitems] at h
    cases h
  | ok all =>
    rw [hitems] at h
    obtain rfl : all = full := Except.ok.inj h
    have hstackless := stackless_of_items hitems
    obtain ⟨place, hplace⟩ := GlobalState.exists_elision {} all
    refine ⟨hstackless, _, place, ?_, hplace, fun i => ?_,
      GlobalState.dropRedundant_dropRedundant {} all⟩
    · rw [result_emit, hitems]
      rfl
    · have hkept := hstackless.sublist (GlobalState.sublist_dropRedundant {} all)
      have hcurrent := congrArg GlobalStack.current (hplace.globals_eq i)
      rwa [(hkept.sublist (List.take_sublist _ _)).current_afterAll,
        (hstackless.sublist (List.take_sublist _ _)).current_afterAll] at hcurrent

theorem emit_elide_sample :
    ∃ full, (emit ⟨.tight, true, false⟩ Sample.device.elements).result = .ok full ∧
      Stackless full ∧
      ∃ kept place, (emit ⟨.tight, true, true⟩ Sample.device.elements).result = .ok kept ∧
        Elision .empty full kept place ∧
        (∀ i : Fin kept.length,
          Globals.empty.afterAll (kept.take i) = Globals.empty.afterAll (full.take (place i))) ∧
        GlobalState.dropRedundant {} kept = kept :=
  have hfull : (emit ⟨.tight, true, false⟩ Sample.device.elements).result = .ok _ := rfl
  ⟨_, hfull, emit_elide .tight true Sample.device.elements _ hfull⟩

end Emission

end ReportDescriptor
