import ReportDescriptor.Layout.Basic
import ReportDescriptor.Proofs.Layout.Edit
import ReportDescriptor.Proofs.Layout.Overspan

/-!
# Relocation in one pass

Moving one overspanning field after another, with a new search from the beginning each time,
comes to the same as one pass from left to right that places each field at the bit it has
reached.
-/

namespace ReportDescriptor

namespace Layout

/-- The padding in front of a moved field. -/
def padBefore (pad : Fin 8) : List Leaf :=
  if h : 1 ≤ pad.val then [.padding ⟨pad, h, by omega⟩] else []

/-- What a field becomes at a bit: itself, or padding and a field of another width. -/
def place (offset : Nat) (l : Leaf) : List Leaf :=
  if overspans offset l.size.adjusted l.count.value then
    match Relocation.fitting? offset l.size l.count.value with
    | some (w, pad) => padBefore pad ++ [l.withRequested w]
    | none => [l]
  else [l]

/-- Each field is placed where those before it end. -/
def placeAll (offset : Nat) : List Leaf → List Leaf
  | [] => []
  | l :: ls => place offset l ++ placeAll (offset + total Leaf.bits (place offset l)) ls

theorem total_padBefore (pad : Fin 8) : total Leaf.bits (padBefore pad) = pad := by
  rw [padBefore]
  split
  · rw [total_cons, Leaf.bits_padding, total_nil, Nat.add_zero]
  · rw [total_nil]
    omega

theorem unspanned_padBefore (offset : Nat) (pad : Fin 8) : Unspanned offset (padBefore pad) := by
  rw [padBefore]
  split
  · rw [unspanned_padding]
    have hpad := pad.isLt
    simp only
    omega
  · exact unspanned_nil _

theorem place_of_not_overspans {offset : Nat} {l : Leaf}
    (h : overspans offset l.size.adjusted l.count.value = false) : place offset l = [l] := by
  rw [place, h, if_neg Bool.false_ne_true]

theorem place_of_fitting? {offset : Nat} {l : Leaf} {w : BitWidth} {pad : Fin 8}
    (hover : overspans offset l.size.adjusted l.count.value = true)
    (hfit : Relocation.fitting? offset l.size l.count.value = some (w, pad)) :
    place offset l = padBefore pad ++ [l.withRequested w] := by
  rw [place, if_pos hover, hfit]

theorem unspanned_place (offset : Nat) (l : Leaf) : Unspanned offset (place offset l) := by
  cases hover : overspans offset l.size.adjusted l.count.value with
  | false =>
    rw [place_of_not_overspans hover, unspanned_cons]
    exact ⟨hover, unspanned_nil _⟩
  | true =>
    obtain ⟨w, pad, hfit⟩ := Relocation.exists_fitting? offset l.size l.count.value
    have hmoved := (Relocation.of_fitting? hfit).2
    rw [place_of_fitting? hover hfit, unspanned_append, total_padBefore, unspanned_cons,
      Leaf.size_withRequested, Leaf.count_withRequested]
    exact ⟨unspanned_padBefore offset pad, hmoved, unspanned_nil _⟩

theorem unspanned_placeAll (offset : Nat) (ls : List Leaf) :
    Unspanned offset (placeAll offset ls) := by
  induction ls generalizing offset with
  | nil => exact unspanned_nil _
  | cons l ls ih =>
    rw [placeAll, unspanned_append]
    exact ⟨unspanned_place offset l, ih _⟩

theorem placeAll_append (offset : Nat) (as bs : List Leaf) :
    placeAll offset (as ++ bs) =
      placeAll offset as ++ placeAll (offset + total Leaf.bits (placeAll offset as)) bs := by
  induction as generalizing offset with
  | nil => rfl
  | cons a as ih =>
    rw [List.cons_append, placeAll, ih, placeAll, total_append, List.append_assoc, Nat.add_assoc]

theorem placeAll_of_unspanned {offset : Nat} {ls : List Leaf} (h : Unspanned offset ls) :
    placeAll offset ls = ls := by
  induction ls generalizing offset with
  | nil => rfl
  | cons l ls ih =>
    rw [unspanned_cons] at h
    rw [placeAll, place_of_not_overspans h.1, total_cons, total_nil, Nat.add_zero, ih h.2,
      List.singleton_append]

theorem relocate?_eq_none_iff {f : FieldForest} :
    relocate? f = none ↔ Unspanned 0 f.leaves := by
  rw [← @Relocation.first?_eq_none_iff 0]
  constructor
  · intro h
    cases hr : Relocation.first? 0 0 f.leaves with
    | none => rfl
    | some r =>
      obtain ⟨pre, l, post, hleaves, -, hindex, -⟩ := Relocation.of_first?_eq_some hr
      have hget := Forest.getElem?_leaves_of_append hleaves
      rw [Nat.zero_add] at hindex
      rw [← hindex] at hget
      simp [relocate?, hr, hget] at h
  · intro h
    simp [relocate?, h]

namespace Edit

theorem applyAll_append (f : FieldForest) (es es' : List Edit) :
    applyAll f (es ++ es') = applyAll (applyAll f es) es' :=
  List.foldl_append

variable {f : FieldForest} {pre post : List Leaf} {l : Leaf}

theorem leaves_growth (h : f.leaves = pre ++ l :: post) (w : BitWidth) :
    (applyAll f (if l.size.requested = w then []
      else [.grow pre.length l.size.requested w])).leaves = pre ++ l.withRequested w :: post := by
  by_cases hw : l.size.requested = w
  · rw [if_pos hw, applyAll_nil, ← hw, Leaf.withRequested_requested]
    exact h
  · rw [if_neg hw, applyAll_cons, applyAll_nil]
    exact leaves_grow h _ _

theorem leaves_padding (h : f.leaves = pre ++ l :: post) (pad : Fin 8) :
    (applyAll f (if h : 1 ≤ pad.val then [.insertPadding ⟨pad, h, by omega⟩ pre.length]
      else [])).leaves = pre ++ padBefore pad ++ l :: post := by
  rw [padBefore]
  by_cases hpad : 1 ≤ pad.val
  · rw [dif_pos hpad, dif_pos hpad, applyAll_cons, applyAll_nil, List.append_assoc]
    exact leaves_insertPadding h _
  · rw [dif_neg hpad, dif_neg hpad, applyAll_nil, List.append_nil]
    exact h

end Edit

/-- One relocation finds the first field that overspans, and edits the forest so that it fits. -/
theorem of_relocate? {f g : FieldForest} {records : List LogRecord}
    (h : relocate? f = some (records, g)) :
    ∃ pre l post w, ∃ pad : Fin 8, ∃ es, f.leaves = pre ++ l :: post ∧ Unspanned 0 pre ∧
      overspans (total Leaf.bits pre) l.size.adjusted l.count.value = true ∧
      Relocation.fitting? (total Leaf.bits pre) l.size l.count.value = some (w, pad) ∧
      es = (if l.size.requested = w then [] else [.grow pre.length l.size.requested w]) ++
        (if h : 1 ≤ pad.val then [.insertPadding ⟨pad, h, by omega⟩ pre.length] else []) ∧
      records = .overspan ⟨pre.length, UInt32.ofNat (total Leaf.bits pre), w, pad⟩ ::
        es.map .edit ∧
      g = Edit.applyAll f es := by
  simp only [relocate?, Option.bind_eq_bind, Option.bind_eq_some_iff, Option.pure_def,
    Option.some.injEq, Prod.mk.injEq] at h
  obtain ⟨r, hr, l', hget, hrecords, hg⟩ := h
  obtain ⟨pre, l, post, hleaves, hpre, hindex, hoffset, hover, hfit⟩ :=
    Relocation.of_first?_eq_some hr
  rw [Nat.zero_add] at hindex hoffset hover hfit
  obtain ⟨_, _, w, pad⟩ := r
  obtain rfl := hindex
  obtain rfl := hoffset
  rw [Forest.getElem?_leaves_of_append hleaves, Option.some.injEq] at hget
  subst hget
  exact ⟨pre, l, post, w, pad, _, hleaves, hpre, hover, hfit, rfl, hrecords.symm, hg.symm⟩

/-- One relocation puts the first field that overspans in its place. -/
theorem leaves_of_relocate? {f g : FieldForest} {records : List LogRecord}
    (h : relocate? f = some (records, g)) :
    ∃ pre l post, f.leaves = pre ++ l :: post ∧ Unspanned 0 pre ∧
      overspans (total Leaf.bits pre) l.size.adjusted l.count.value = true ∧
      g.leaves = pre ++ place (total Leaf.bits pre) l ++ post := by
  obtain ⟨pre, l, post, w, pad, _, hleaves, hpre, hover, hfit, rfl, -, rfl⟩ := of_relocate? h
  refine ⟨pre, l, post, hleaves, hpre, hover, ?_⟩
  -- Growing the field first leaves it at its index, where the padding goes.
  have hgrown := Edit.leaves_growth hleaves w
  have hpadded := Edit.leaves_padding hgrown pad
  rw [← Edit.applyAll_append] at hpadded
  rw [place_of_fitting? hover hfit, hpadded]
  simp only [List.append_assoc, List.singleton_append]

/-- A field that overspans lies behind all fields that do not. -/
theorem append_eq_of_overspans {as bs pre post : List Leaf} {l : Leaf}
    (h : as ++ bs = pre ++ l :: post) (has : Unspanned 0 as)
    (hl : overspans (total Leaf.bits pre) l.size.adjusted l.count.value = true) :
    ∃ mid, pre = as ++ mid ∧ bs = mid ++ l :: post := by
  rcases List.append_eq_append_iff.1 h with ⟨mid, hpre, hbs⟩ | ⟨mid, has', hpost⟩
  · exact ⟨mid, hpre, hbs⟩
  · cases mid with
    | nil =>
      rw [List.nil_append] at hpost
      rw [List.append_nil] at has'
      exact ⟨[], by rw [has', List.append_nil], hpost.symm⟩
    | cons a mid =>
      rw [List.cons_append, List.cons.injEq] at hpost
      rw [has', ← hpost.1, unspanned_append, unspanned_cons, Nat.zero_add, hl] at has
      exact absurd has.2.1.symm Bool.false_ne_true

/-- The first `as` are settled, and each step settles at least one of the `bs`. -/
theorem leaves_settle_relocate? {fuel : Nat} {f : FieldForest} {as bs : List Leaf}
    (hleaves : f.leaves = as ++ bs) (has : Unspanned 0 as) (hfuel : bs.length ≤ fuel) :
    (settle relocate? fuel f).2.leaves = as ++ placeAll (total Leaf.bits as) bs := by
  induction fuel generalizing f as bs with
  | zero =>
    obtain rfl := List.eq_nil_of_length_eq_zero (Nat.le_zero.1 hfuel)
    exact hleaves
  | succ fuel ih =>
    rw [settle]
    cases hstep : relocate? f with
    | none =>
      have hall := relocate?_eq_none_iff.1 hstep
      rw [hleaves, unspanned_append, Nat.zero_add] at hall
      rw [placeAll_of_unspanned hall.2]
      exact hleaves
    | some step =>
      obtain ⟨records, g⟩ := step
      obtain ⟨pre, l, post, hf, hpre, hover, hg⟩ := leaves_of_relocate? hstep
      obtain ⟨mid, rfl, rfl⟩ := append_eq_of_overspans (hleaves.symm.trans hf) has hover
      have hplaced : Unspanned 0 (as ++ mid ++ place (total Leaf.bits (as ++ mid)) l) := by
        rw [unspanned_append, Nat.zero_add]
        exact ⟨hpre, unspanned_place _ l⟩
      have hpost : post.length ≤ fuel := by
        rw [List.length_append, List.length_cons] at hfuel
        omega
      have hmid : Unspanned (total Leaf.bits as) mid := by
        rw [unspanned_append, Nat.zero_add] at hpre
        exact hpre.2
      have hlater := ih hg hplaced hpost
      simp only [hlater, placeAll_append _ mid, placeAll_of_unspanned hmid, placeAll, total_append,
        List.append_assoc, Nat.add_assoc]

theorem leaves_correctOverspans (f : FieldForest) :
    (correctOverspans f).2.leaves = placeAll 0 f.leaves :=
  leaves_settle_relocate? (List.nil_append _).symm (unspanned_nil 0) (Nat.le_refl _)

theorem unspanned_correctOverspans (f : FieldForest) :
    Unspanned 0 (correctOverspans f).2.leaves := by
  rw [leaves_correctOverspans]
  exact unspanned_placeAll 0 _

end Layout

end ReportDescriptor
