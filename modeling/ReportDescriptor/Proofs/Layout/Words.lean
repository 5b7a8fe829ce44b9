import Mathlib.Algebra.Group.Nat.Defs
import ReportDescriptor.Layout.Words
import ReportDescriptor.Proofs.Constructible
import ReportDescriptor.Proofs.Field.Packing
import ReportDescriptor.Proofs.Layout.Legality
import ReportDescriptor.Proofs.Layout.Periodicity

/-!
# When words are enough

No field has more than 65535 values of 32 bits, and none is moved by more than seven bits. With so
much room for every field, 2048 of them can be laid out in words and 2049 cannot.
-/

namespace ReportDescriptor

theorem Leaf.bits_le (l : Leaf) : l.bits ≤ 2097120 :=
  Nat.mul_le_mul l.count.le_max l.size.adjusted_le

theorem Leaf.rawBits_le_bits (l : Leaf) : l.rawBits ≤ l.bits :=
  Nat.mul_le_mul_left _ l.size.requested_le_adjusted

theorem Leaf.bits_le_withRequested (l : Leaf) {w : BitWidth} (h : l.size.requested.bits ≤ w.bits) :
    l.bits ≤ (l.withRequested w).bits := by
  rw [bits, bits, count_withRequested, size_withRequested]
  exact Nat.mul_le_mul_left _ (l.size.packing.roundUp_mono h)

theorem total_le_total {α : Type} {f g : α → Nat} (h : ∀ a, f a ≤ g a) (as : List α) :
    total f as ≤ total g as := by
  induction as with
  | nil => exact Nat.le_refl _
  | cons a as ih => exact Nat.add_le_add (h a) ih

theorem total_le_length_mul {α : Type} {f : α → Nat} {n : Nat} (h : ∀ a, f a ≤ n) (as : List α) :
    total f as ≤ as.length * n := by
  induction as with
  | nil => exact Nat.zero_le _
  | cons a as ih =>
    have ha := h a
    rw [total_cons, List.length_cons, Nat.succ_mul]
    omega

namespace Words

open Layout

/-- Sums are exact or fail. -/
theorem add_eq_ok_iff {a b c : UInt32} : add a b = .ok c ↔ c.toNat = a.toNat + b.toNat := by
  have hc := c.toNat_lt
  have hsize : UInt32.size = 2 ^ 32 := rfl
  rw [add]
  split
  case isTrue h =>
    have hsum : (a + b).toNat = a.toNat + b.toNat := by
      rw [UInt32.toNat_add]
      omega
    rw [Except.ok.injEq, ← UInt32.toNat_inj, hsum, eq_comm]
  case isFalse h => exact ⟨nofun, fun hsum => by omega⟩

theorem mul_eq_ok_iff {a b c : UInt32} : mul a b = .ok c ↔ c.toNat = a.toNat * b.toNat := by
  have hc := c.toNat_lt
  have hsize : UInt32.size = 2 ^ 32 := rfl
  rw [mul]
  split
  case isTrue h =>
    have hproduct : (a * b).toNat = a.toNat * b.toNat := by
      rw [UInt32.toNat_mul]
      exact Nat.mod_eq_of_lt h
    rw [Except.ok.injEq, ← UInt32.toNat_inj, hproduct, eq_comm]
  case isFalse h => exact ⟨nofun, fun hproduct => by omega⟩

theorem add_ofNat {m n : Nat} (h : m + n < UInt32.size) :
    add (UInt32.ofNat m) (UInt32.ofNat n) = .ok (UInt32.ofNat (m + n)) := by
  rw [add_eq_ok_iff, UInt32.toNat_ofNat_of_lt' h, UInt32.toNat_ofNat_of_lt' (by omega),
    UInt32.toNat_ofNat_of_lt' (by omega)]

theorem mul_ofNat {m n : Nat} (hm : m < UInt32.size) (hn : n < UInt32.size)
    (h : m * n < UInt32.size) :
    mul (UInt32.ofNat m) (UInt32.ofNat n) = .ok (UInt32.ofNat (m * n)) := by
  rw [mul_eq_ok_iff, UInt32.toNat_ofNat_of_lt' h, UInt32.toNat_ofNat_of_lt' hm,
    UInt32.toNat_ofNat_of_lt' hn]

theorem count_eq (l : Leaf) : count l = .ok (UInt32.ofNat l.count.value) := by
  cases l with
  | single v => rfl
  | range v =>
    have hends := v.usages.first_toNat_lt
    have hlast := v.usages.last.id.toNat_lt
    have hlast' : v.usages.last.id.toUInt32.toNat = v.usages.last.id.toNat :=
      UInt16.toNat_toUInt32 _
    have hfirst : v.usages.first.id.toUInt32.toNat = v.usages.first.id.toNat :=
      UInt16.toNat_toUInt32 _
    have hspan : (v.usages.last.id.toUInt32 - v.usages.first.id.toUInt32).toNat =
        v.usages.last.id.toNat - v.usages.first.id.toNat := by
      have hle : v.usages.first.id.toUInt32 ≤ v.usages.last.id.toUInt32 := by
        rw [UInt32.le_iff_toNat_le]
        omega
      rw [UInt32.toNat_sub_of_le _ _ hle, hlast', hfirst]
    rw [count, ← @UInt32.ofNat_toNat (v.usages.last.id.toUInt32 - v.usages.first.id.toUInt32),
      hspan]
    exact add_ofNat (n := 1) (by rw [UInt32.size]; omega)
  | array s => rfl
  | padding w => rfl

theorem count_mul_eq (l : Leaf) {n : Nat} (hn : n ≤ 32) :
    (count l >>= fun c => mul c (UInt32.ofNat n)) = .ok (UInt32.ofNat (l.count.value * n)) := by
  have hcount := l.count.le_max
  have hproduct : l.count.value * n ≤ 65535 * 32 := Nat.mul_le_mul hcount hn
  have hsize : UInt32.size = 4294967296 := rfl
  rw [count_eq, ok_bind]
  exact mul_ofNat (by omega) (by omega) (by omega)

theorem bits_eq (l : Leaf) : bits l = .ok (UInt32.ofNat l.bits) :=
  count_mul_eq l l.size.adjusted_le

theorem rawBits_eq (l : Leaf) : rawBits l = .ok (UInt32.ofNat l.rawBits) :=
  count_mul_eq l l.size.requested.le_max

variable {measure : Leaf → Checked UInt32} {exact : Leaf → Nat}

theorem sum_eq (hmeasure : ∀ l, measure l = .ok (UInt32.ofNat (exact l))) {acc : Nat}
    {f : FieldForest} (h : acc + total exact f.leaves < UInt32.size) :
    sum measure (UInt32.ofNat acc) f = .ok (UInt32.ofNat (acc + total exact f.leaves)) := by
  induction f generalizing acc with
  | nil => rfl
  | leaf l rest ih =>
    rw [Forest.leaves_leaf, total_cons] at h ⊢
    rw [sum, hmeasure, ok_bind, add_ofNat (by omega), ok_bind, ih (by omega), Nat.add_assoc]
  | node c children rest ihc ihr =>
    rw [Forest.leaves_node, total_append] at h ⊢
    have hchildren : sum measure (UInt32.ofNat 0) children =
        .ok (UInt32.ofNat (0 + total exact children.leaves)) := ihc (by omega)
    rw [Nat.zero_add] at hchildren
    change sum measure 0 children = _ at hchildren
    rw [sum, hchildren, ok_bind, add_ofNat (by omega), ok_bind, ihr (by omega), Nat.add_assoc]

/-- A sum that does not fail is exact. -/
theorem toNat_of_sum (hmeasure : ∀ l, measure l = .ok (UInt32.ofNat (exact l)))
    (hexact : ∀ l, exact l < UInt32.size) {acc n : UInt32} {f : FieldForest}
    (h : sum measure acc f = .ok n) : n.toNat = acc.toNat + total exact f.leaves := by
  induction f generalizing acc n with
  | nil =>
    obtain rfl := Except.ok.inj h
    rfl
  | leaf l rest ih =>
    rw [sum, hmeasure, ok_bind, bind_eq_ok_iff] at h
    obtain ⟨acc', hadd, hrest⟩ := h
    rw [add_eq_ok_iff, UInt32.toNat_ofNat_of_lt' (hexact l)] at hadd
    rw [ih hrest, hadd, Forest.leaves_leaf, total_cons, Nat.add_assoc]
  | node c children rest ihc ihr =>
    simp only [sum, bind_eq_ok_iff, add_eq_ok_iff] at h
    obtain ⟨m, hchildren, acc', hadd, hrest⟩ := h
    rw [ihr hrest, hadd, ihc hchildren, UInt32.toNat_zero, Nat.zero_add, Forest.leaves_node,
      total_append, Nat.add_assoc]

theorem sum_zero_eq (hmeasure : ∀ l, measure l = .ok (UInt32.ofNat (exact l))) {f : FieldForest}
    (h : total exact f.leaves < UInt32.size) :
    sum measure 0 f = .ok (UInt32.ofNat (total exact f.leaves)) := by
  have hsum : sum measure (UInt32.ofNat 0) f = .ok (UInt32.ofNat (0 + total exact f.leaves)) :=
    sum_eq hmeasure (by rwa [Nat.zero_add])
  rwa [Nat.zero_add] at hsum

theorem toNat_of_sum_bits {f : FieldForest} {n : UInt32} (h : sum bits 0 f = .ok n) :
    n.toNat = f.bits := by
  have htotal := toNat_of_sum bits_eq (fun l => Nat.lt_of_le_of_lt l.bits_le (by decide)) h
  rwa [UInt32.toNat_zero, Nat.zero_add] at htotal

theorem sum_bits_eq {f : FieldForest} (h : f.bits < UInt32.size) :
    sum bits 0 f = .ok (UInt32.ofNat f.bits) :=
  sum_zero_eq bits_eq h

section Search

variable {offset : Nat}

theorem toNat_ofNat_count (c : FieldCount) : (UInt32.ofNat c.value).toNat = c.value :=
  UInt32.toNat_ofNat_of_lt' (Nat.lt_of_le_of_lt c.le_max (by decide))

theorem leastPad?_eq (h : offset + 7 < UInt32.size) (s : FieldSize) (c : FieldCount)
    (w : BitWidth) : leastPad? (UInt32.ofNat offset) s (UInt32.ofNat c.value) w =
      .ok (Relocation.leastPad? offset s c.value w) := by
  have htry (pad : Fin 8) : (do
      let start ← add (UInt32.ofNat offset) (UInt32.ofNat pad)
      return !overspans start.toNat { s with requested := w }.adjusted
        (UInt32.ofNat c.value).toNat : Checked Bool) =
      pure (!overspans (offset + pad) { s with requested := w }.adjusted c.value) := by
    have hpad := pad.isLt
    rw [add_ofNat (by omega), ok_bind, overspans_ofNat, toNat_ofNat_count]
  rw [leastPad?, funext htry, List.findM?_pure]
  rfl

theorem fitting?_eq (h : offset + 7 < UInt32.size) (s : FieldSize) (c : FieldCount) :
    fitting? (UInt32.ofNat offset) s (UInt32.ofNat c.value) =
      .ok (Relocation.fitting? offset s c.value) := by
  have htry (w : BitWidth) : (do
      return (← leastPad? (UInt32.ofNat offset) s (UInt32.ofNat c.value) w).map (w, ·) :
        Checked (Option (BitWidth × Fin 8))) =
      pure ((Relocation.leastPad? offset s c.value w).map (w, ·)) := by
    rw [leastPad?_eq h]
    rfl
  rw [fitting?, funext htry, List.findSomeM?_pure]
  rfl

theorem first?_eq {index : Nat} {ls : List Leaf}
    (h : offset + total Leaf.bits ls + 7 < UInt32.size) :
    first? index (UInt32.ofNat offset) ls = .ok (Relocation.first? index offset ls) := by
  induction ls generalizing index offset with
  | nil => rfl
  | cons l ls ih =>
    rw [total_cons] at h
    rw [first?, count_eq, ok_bind, overspans_ofNat, toNat_ofNat_count, Relocation.first?]
    split
    · rw [fitting?_eq (by omega)]
      rfl
    · rw [bits_eq, ok_bind, add_ofNat (by omega), ok_bind]
      exact ih (by omega)

theorem toOption_ofNat_add (v w : BitWidth) :
    (BitWidth.ofNat (v.bits + w.bits)).toOption = v.add? w := by
  have hv := v.one_le
  unfold BitWidth.ofNat BitWidth.add?
  by_cases h : v.bits + w.bits ≤ 32
  · rw [dif_pos ⟨by omega, h⟩, dif_pos h]
    rfl
  · rw [dif_neg fun h' => h h'.2, dif_neg h]
    rfl

theorem merged?_eq (offset : Nat) (a b : Leaf) :
    Words.merged? (UInt32.ofNat offset) a b = .ok (Layout.merged? offset a b) := by
  cases a with
  | padding v =>
    cases b with
    | padding w =>
      have hv := v.le_max
      have hw := w.le_max
      have hsum : (UInt32.ofNat (v.bits + w.bits)).toNat = v.bits + w.bits :=
        UInt32.toNat_ofNat_of_lt' (by rw [UInt32.size]; omega)
      rw [Words.merged?, add_ofNat (by rw [UInt32.size]; omega), ok_bind, hsum,
        toOption_ofNat_add]
      simp only [overspans_ofNat]
      rfl
    | _ => rfl
  | _ => cases b <;> rfl

theorem firstMerger?_eq {index : Nat} {ls : List Leaf}
    (h : offset + total Leaf.bits ls < UInt32.size) :
    Words.firstMerger? index (UInt32.ofNat offset) ls =
      .ok (Layout.firstMerger? index offset ls) := by
  induction ls generalizing index offset with
  | nil => rfl
  | cons a ls ih =>
    cases ls with
    | nil => rfl
    | cons b ls =>
      rw [total_cons] at h
      rw [Words.firstMerger?, merged?_eq, ok_bind, Layout.firstMerger?]
      cases Layout.merged? offset a b with
      | some w => rfl
      | none =>
        rw [bits_eq, ok_bind, add_ofNat (by omega), ok_bind]
        exact ih (by omega)

end Search

theorem relocate?_eq {f : FieldForest} (h : f.bits + 7 < UInt32.size) :
    Words.relocate? f = .ok (Layout.relocate? f) := by
  have hfirst : first? 0 (UInt32.ofNat 0) f.leaves = .ok (Relocation.first? 0 0 f.leaves) :=
    first?_eq (by rwa [Nat.zero_add])
  change first? 0 0 f.leaves = _ at hfirst
  rw [Words.relocate?, hfirst]
  rfl

theorem merge?_eq {f : FieldForest} (h : f.bits < UInt32.size) :
    Words.merge? f = .ok (Layout.merge? f) := by
  have hfirst : Words.firstMerger? 0 (UInt32.ofNat 0) f.leaves =
      .ok (Layout.firstMerger? 0 0 f.leaves) := firstMerger?_eq (by rwa [Nat.zero_add])
  change Words.firstMerger? 0 0 f.leaves = _ at hfirst
  rw [Words.merge?, hfirst, ok_bind, Layout.merge?]
  cases Layout.firstMerger? 0 0 f.leaves <;> rfl

theorem settle_eq {words? : FieldForest → Checked (Option (List LogRecord × FieldForest))}
    {change? : FieldForest → Option (List LogRecord × FieldForest)} {P : FieldForest → Prop}
    (heq : ∀ f, P f → words? f = .ok (change? f))
    (hstep : ∀ f records g, P f → change? f = some (records, g) → P g) (fuel : Nat)
    {f : FieldForest} (hf : P f) :
    Words.settle words? fuel f = .ok (Layout.settle change? fuel f) := by
  induction fuel generalizing f with
  | zero =>
    rw [Words.settle, heq f hf]
    rfl
  | succ fuel ih =>
    rw [Words.settle, heq f hf, ok_bind, Layout.settle]
    cases hchange : change? f with
    | none => rfl
    | some step =>
      obtain ⟨records, g⟩ := step
      simp only [ih (hstep f records g hf hchange)]
      rfl

theorem alignToByte_eq {f : FieldForest} (h : f.bits + 7 < UInt32.size) :
    Words.alignToByte f = .ok (Layout.alignToByte f) := by
  have hbits : (UInt32.ofNat f.bits).toNat = f.bits := UInt32.toNat_ofNat_of_lt' (by omega)
  rw [Words.alignToByte, sum_bits_eq (by omega), ok_bind, Layout.alignToByte]
  simp only [hbits]
  by_cases haligned : f.bits % 8 = 0
  · rw [dif_pos haligned, dif_pos haligned]
    rfl
  · rw [dif_neg haligned, dif_neg haligned, add_ofNat (by omega), ok_bind]
    rfl

/-- A field that is moved does not become smaller. -/
theorem bits_le_total_place (offset : Nat) (l : Leaf) :
    l.bits ≤ total Leaf.bits (place offset l) := by
  cases hover : overspans offset l.size.adjusted l.count.value with
  | false =>
    rw [place_of_not_overspans hover, total_cons, total_nil]
    exact Nat.le_refl _
  | true =>
    obtain ⟨w, pad, hfit⟩ := Relocation.exists_fitting? offset l.size l.count.value
    have hgrown := l.bits_le_withRequested (Relocation.of_fitting? hfit).1
    rw [place_of_fitting? hover hfit, total_append, total_cons, total_nil]
    omega

theorem total_le_placeAll (offset : Nat) (ls : List Leaf) :
    total Leaf.bits ls ≤ total Leaf.bits (placeAll offset ls) := by
  induction ls generalizing offset with
  | nil => exact Nat.le_refl _
  | cons l ls ih =>
    rw [placeAll, total_cons, total_append]
    exact Nat.add_le_add (bits_le_total_place offset l) (ih _)

/-- One relocation after another leads to where all fields are placed. -/
theorem placeAll_of_relocate? {f g : FieldForest} {records : List LogRecord}
    (h : Layout.relocate? f = some (records, g)) : placeAll 0 g.leaves = placeAll 0 f.leaves := by
  obtain ⟨pre, l, post, hf, hpre, -, hg⟩ := leaves_of_relocate? h
  have hplaced := placeAll_of_unspanned (unspanned_place (total Leaf.bits pre) l)
  have hsettled := placeAll_of_unspanned hpre
  rw [hf, hg, List.append_assoc, placeAll_append 0 pre, placeAll_append 0 pre, hsettled,
    Nat.zero_add, placeAll_append, hplaced, placeAll]

/-- Some fields have been settled already, and for each of the others there is still as much room
as a field and the padding before it can take up. -/
def Roomy (f : FieldForest) : Prop :=
  ∃ as bs, f.leaves = as ++ bs ∧ Unspanned 0 as ∧
    total Leaf.bits as + bs.length * 2097127 ≤ 2048 * 2097127

theorem total_place_le (offset : Nat) (l : Leaf) :
    total Leaf.bits (place offset l) ≤ 2097127 := by
  have hl := l.bits_le
  cases hover : overspans offset l.size.adjusted l.count.value with
  | false =>
    rw [place_of_not_overspans hover, total_cons, total_nil]
    omega
  | true =>
    obtain ⟨w, pad, hfit⟩ := Relocation.exists_fitting? offset l.size l.count.value
    have hmoved := (l.withRequested w).bits_le
    rw [place_of_fitting? hover hfit, total_append, total_padBefore, total_cons, total_nil]
    omega

theorem Roomy.bits_le {f : FieldForest} (h : Roomy f) : f.bits ≤ 2048 * 2097127 := by
  obtain ⟨as, bs, hleaves, -, hroom⟩ := h
  have hbs := total_le_length_mul Leaf.bits_le bs
  rw [FieldForest.bits, hleaves, total_append]
  omega

theorem Roomy.of_length {f : FieldForest} (h : f.leaves.length ≤ 2048) : Roomy f :=
  ⟨[], f.leaves, rfl, unspanned_nil 0, by rw [total_nil]; omega⟩

/-- A field that is moved takes up no more than the room there was for it. -/
theorem Roomy.relocate {f g : FieldForest} {records : List LogRecord} (hf : Roomy f)
    (h : Layout.relocate? f = some (records, g)) : Roomy g := by
  obtain ⟨as, bs, hleaves, has, hroom⟩ := hf
  obtain ⟨pre, l, post, hf, hpre, hover, hg⟩ := leaves_of_relocate? h
  -- No settled field overspans, so the one that is moved is among the others.
  obtain ⟨mid, rfl, rfl⟩ := append_eq_of_overspans (hleaves.symm.trans hf) has hover
  refine ⟨as ++ mid ++ place (total Leaf.bits (as ++ mid)) l, post, hg, ?_, ?_⟩
  · rw [unspanned_append, Nat.zero_add]
    exact ⟨hpre, unspanned_place _ l⟩
  · have hmid := total_le_length_mul Leaf.bits_le mid
    have hplace := total_place_le (total Leaf.bits (as ++ mid)) l
    rw [List.length_append, List.length_cons] at hroom
    rw [total_append] at hplace ⊢
    rw [total_append]
    omega

theorem le_bits_alignToByte (f : FieldForest) : f.bits ≤ (Layout.alignToByte f).2.bits := by
  by_cases h : f.bits % 8 = 0
  · have hsame : (Layout.alignToByte f).2 = f := by rw [Layout.alignToByte, dif_pos h]
    exact Nat.le_of_eq (by rw [hsame])
  · obtain ⟨w, -, hleaves⟩ := leaves_alignToByte f h
    rw [FieldForest.bits, FieldForest.bits, hleaves, total_append]
    exact Nat.le_add_right _ _

theorem bits_alignToByte_le (f : FieldForest) : (Layout.alignToByte f).2.bits ≤ f.bits + 7 := by
  by_cases h : f.bits % 8 = 0
  · rw [Layout.alignToByte, dif_pos h]
    exact Nat.le_add_right _ _
  · obtain ⟨w, hw, hleaves⟩ := leaves_alignToByte f h
    rw [FieldForest.bits, hleaves, total_append, total_cons, total_nil, Leaf.bits_padding, hw]
    change f.bits + _ ≤ f.bits + 7
    omega

theorem roomy_correctOverspans {f : FieldForest} (h : Roomy f) :
    Roomy (correctOverspans f).2 :=
  settle_induction (fun _ _ _ => Roomy.relocate) _ h

theorem bits_layout_le {f : FieldForest} (h : Roomy f) :
    (ReportDescriptor.layout f).2.bits ≤ 2048 * 2097127 + 7 := by
  have hmoved := (roomy_correctOverspans h).bits_le
  have haligned := bits_alignToByte_le (correctOverspans f).2
  rw [ReportDescriptor.layout, bits_coalescePadding]
  omega

theorem settle_relocate?_eq {f : FieldForest}
    (h : total Leaf.bits (placeAll 0 f.leaves) + 7 < UInt32.size) :
    Words.settle relocate? f.leaves.length f = .ok (correctOverspans f) := by
  refine settle_eq (P := fun g => total Leaf.bits (placeAll 0 g.leaves) + 7 < UInt32.size)
    (fun g hg => relocate?_eq ?_) (fun g records g' hg hstep => ?_) _ h
  · have hle := total_le_placeAll 0 g.leaves
    rw [FieldForest.bits]
    omega
  · rwa [placeAll_of_relocate? hstep]

theorem settle_merge?_eq {f : FieldForest} (h : f.bits < UInt32.size) :
    Words.settle merge? f.leaves.length f = .ok (coalescePadding f) :=
  settle_eq (P := fun g => g.bits < UInt32.size) (fun _ => merge?_eq)
    (fun _ _ _ hg hmerge => total_of_merge? hmerge ▸ hg) _ h

/-- No pass makes the report smaller. -/
theorem bits_correctOverspans_le (f : FieldForest) :
    f.bits ≤ (correctOverspans f).2.bits ∧
      (correctOverspans f).2.bits ≤ (ReportDescriptor.layout f).2.bits := by
  constructor
  · rw [FieldForest.bits, FieldForest.bits, leaves_correctOverspans]
    exact total_le_placeAll 0 f.leaves
  · rw [ReportDescriptor.layout, bits_coalescePadding]
    exact le_bits_alignToByte _

/-- Words are enough if the total of the laid out report is one. -/
theorem layout_eq {f : FieldForest} (h : (ReportDescriptor.layout f).2.bits < UInt32.size) :
    Words.layout f = .ok (ReportDescriptor.layout f) := by
  obtain ⟨hbefore, hmoved⟩ := bits_correctOverspans_le f
  -- The total is a multiple of eight, so seven more bits still make a word.
  have hbytes := bits_layout_mod f
  have hsize : UInt32.size = 4294967296 := rfl
  have hplaced : total Leaf.bits (placeAll 0 f.leaves) = (correctOverspans f).2.bits := by
    rw [FieldForest.bits, leaves_correctOverspans]
  have haligned : (Layout.alignToByte (correctOverspans f).2).2.bits =
      (ReportDescriptor.layout f).2.bits := by
    rw [ReportDescriptor.layout, bits_coalescePadding]
  have hmerged : (coalescePadding (Layout.alignToByte (correctOverspans f).2).2).2.bits <
      UInt32.size := h
  rw [Words.layout, sum_bits_eq (by omega), ok_bind, settle_relocate?_eq (by omega), ok_bind,
    alignToByte_eq (by omega), ok_bind, settle_merge?_eq (by omega), ok_bind,
    sum_bits_eq hmerged, ok_bind]
  rfl

theorem build_eq_of_bits (kind : ReportKind) (id : UInt8) {children : FieldForest}
    (h : (ReportDescriptor.layout children).2.bits < UInt32.size) :
    Words.build kind id children = .ok (Report.build kind id children) := by
  rw [Words.build, Report.build, layout_eq h]
  split
  · rfl
  · split
    · rfl
    · split
      · rfl
      · rfl

theorem build_eq (kind : ReportKind) (id : UInt8) {children : FieldForest}
    (h : children.leaves.length ≤ 2048) :
    Words.build kind id children = .ok (Report.build kind id children) := by
  have hlaidOut := bits_layout_le (.of_length h)
  refine build_eq_of_bits kind id ?_
  rw [UInt32.size]
  omega

/-- Both totals are words. -/
structure TotalsExact (f : FieldForest) : Prop where
  bits : ∃ n, sum bits 0 f = .ok n ∧ n.toNat = f.bits
  rawBits : ∃ n, sum rawBits 0 f = .ok n ∧ n.toNat = f.rawBits

theorem totalsExact {f : FieldForest} (h : f.bits < UInt32.size) : TotalsExact f := by
  have hraw : f.rawBits < UInt32.size :=
    Nat.lt_of_le_of_lt (total_le_total Leaf.rawBits_le_bits f.leaves) h
  exact ⟨⟨_, sum_bits_eq h, UInt32.toNat_ofNat_of_lt' h⟩,
    ⟨_, sum_zero_eq rawBits_eq hraw, UInt32.toNat_ofNat_of_lt' hraw⟩⟩

theorem exists_overflow {f : FieldForest} (h : 2 ^ 32 ≤ f.bits) :
    ∃ o, sum bits 0 f = .error o := by
  cases hsum : sum bits 0 f with
  | error o => exact ⟨o, rfl⟩
  | ok n =>
    have hn := toNat_of_sum_bits hsum
    have hlt := n.toNat_lt
    omega

/-- Equal fields whose values are as wide as they can be. -/
def widest (n : Nat) (count : FieldCount) : FieldForest :=
  .prepend (List.replicate n (Sample.axis 0x30 count .max .input)) .nil

theorem leaves_widest (n : Nat) (count : FieldCount) :
    (widest n count).leaves = List.replicate n (Sample.axis 0x30 count .max .input) := by
  rw [widest, Forest.leaves_prepend, Forest.leaves_nil, List.append_nil]

theorem bits_widest (n : Nat) (count : FieldCount) :
    (widest n count).bits = n * (count.value * 32) := by
  rw [FieldForest.bits, leaves_widest, total_replicate]
  rfl

/-- Up to 2048 fields are laid out in words as they are in numbers of any size, and so are the
totals and the length of the report. There are 2049 fields whose total is no word. -/
theorem build_exact_in_words :
    (∀ kind id (children : FieldForest), children.leaves.length ≤ 2048 →
      Words.build kind id children = .ok (Report.build kind id children) ∧
      TotalsExact children ∧
      ∀ r, (Report.build kind id children).result = .ok r →
        TotalsExact r.children ∧ Words.sizeInBytes r = .ok r.sizeInBytes) ∧
    ∃ f : FieldForest, f.leaves.length = 2049 ∧
      (∀ l ∈ f.leaves, ∃ s report ctx, Leaf.build s report ctx = .ok l) ∧
      2 ^ 32 ≤ f.bits ∧ ∃ o, sum bits 0 f = .error o := by
  constructor
  · intro kind id children hlength
    have hroomy := Roomy.of_length hlength
    have hbits := hroomy.bits_le
    have hlaidOut := bits_layout_le hroomy
    have hsize : UInt32.size = 4294967296 := rfl
    refine ⟨build_eq kind id hlength, totalsExact (by omega), fun r hr => ?_⟩
    obtain ⟨-, -, -, -, rfl⟩ := Report.build_eq_ok_iff.1 hr
    have htotal : (ReportDescriptor.layout children).2.bits < UInt32.size := by omega
    refine ⟨totalsExact htotal, ?_⟩
    rw [sizeInBytes, sum_bits_eq htotal, ok_bind, UInt32.toNat_ofNat_of_lt' htotal]
    rfl
  · have hbits : 2 ^ 32 ≤ (widest 2049 ⟨65535, by decide, by decide⟩).bits := by
      rw [bits_widest]
      decide
    refine ⟨_, ?_, ?_, hbits, exists_overflow hbits⟩
    · rw [leaves_widest, List.length_replicate]
    · rw [leaves_widest]
      intro l hl
      obtain rfl := List.eq_of_mem_replicate hl
      exact ⟨_, _, _, Sample.axis_of_build _ _ _ _⟩

theorem build_exact_in_words_keypad :
    Sample.keypad.leaves.length ≤ 2048 ∧
      Words.build .input 1 Sample.keypad = .ok (Report.build .input 1 Sample.keypad) ∧
      TotalsExact Sample.keypad ∧
      (Report.build .input 1 Sample.keypad).result = .ok Sample.keypadReport ∧
      TotalsExact Sample.keypadReport.children ∧
      Words.sizeInBytes Sample.keypadReport = .ok Sample.keypadReport.sizeInBytes := by
  have hlength : Sample.keypad.leaves.length ≤ 2048 := by decide
  have hbuild : (Report.build .input 1 Sample.keypad).result = .ok Sample.keypadReport := by decide
  obtain ⟨hwords, htotals, hreport⟩ := build_exact_in_words.1 .input 1 Sample.keypad hlength
  exact ⟨hlength, hwords, htotals, hbuild, hreport _ hbuild⟩

end Words

end ReportDescriptor
