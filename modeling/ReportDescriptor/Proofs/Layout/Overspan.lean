import ReportDescriptor.Collection
import ReportDescriptor.Layout.Overspan

/-!
# Overspan-free fields

A list of fields is unspanned from a bit on when none of its values reaches too far. Looking at
eight values decides it for all of them, since the positions within a byte repeat, and for every
field that overspans there is a width and a padding with which it does not.
-/

namespace ReportDescriptor

theorem overspans_eq_false_iff {offset size count : Nat} :
    overspans offset size count = false ↔
      ∀ i < count, (offset + i * size) % 8 + size ≤ 32 := by
  simp only [overspans, List.any_eq_false, List.mem_range, decide_eq_true_eq, Nat.not_lt]
  constructor
  · intro h i hi
    by_cases h8 : i < 8
    · exact h i (by omega)
    · have hmod : (offset + i * size) % 8 = (offset + i % 8 * size) % 8 := by
        rw [Nat.add_mod, ← Nat.mod_mul_mod, ← Nat.add_mod]
      rw [hmod]
      exact h (i % 8) (by omega)
  · intro h i hi
    exact h i (by omega)

theorem overspans_one_eq_false_iff {offset size : Nat} :
    overspans offset size 1 = false ↔ offset % 8 + size ≤ 32 := by
  rw [overspans_eq_false_iff]
  constructor
  · intro h
    simpa using h 0 (by omega)
  · intro h i hi
    obtain rfl : i = 0 := by omega
    simpa using h

@[simp] theorem FieldSize.adjusted_max (p : Packing) : (FieldSize.mk .max p).adjusted = 32 :=
  p.roundUp_max

/-- A 32-bit value on a byte boundary does not overspan, nor do those that follow it. -/
theorem overspans_aligned (offset count : Nat) (h : offset % 8 = 0) :
    overspans offset 32 count = false := by
  rw [overspans_eq_false_iff]
  intro i _
  omega

namespace Relocation

theorem mem_widths {s : FieldSize} {w : BitWidth} :
    w ∈ widths s ↔ s.requested.bits ≤ w.bits := by
  simp [widths, BitWidth.mem_all]

theorem exists_leastPad?_max (offset : Nat) (s : FieldSize) (count : Nat) :
    ∃ pad, leastPad? offset s count .max = some pad := by
  rw [← Option.isSome_iff_exists, leastPad?, List.find?_isSome]
  refine ⟨⟨(8 - offset % 8) % 8, by omega⟩, List.mem_finRange _, ?_⟩
  rw [FieldSize.adjusted_max, overspans_aligned _ _ (by simp only; omega)]
  rfl

theorem exists_fitting? (offset : Nat) (s : FieldSize) (count : Nat) :
    ∃ w pad, fitting? offset s count = some (w, pad) := by
  have hsome : (fitting? offset s count).isSome := by
    rw [fitting?, List.findSome?_isSome_iff]
    obtain ⟨pad, hpad⟩ := exists_leastPad?_max offset s count
    refine ⟨.max, mem_widths.2 s.requested.le_max, ?_⟩
    rw [hpad]
    rfl
  obtain ⟨⟨w, pad⟩, h⟩ := Option.isSome_iff_exists.1 hsome
  exact ⟨w, pad, h⟩

theorem overspans_of_leastPad? {offset count : Nat} {s : FieldSize} {w : BitWidth} {pad : Fin 8}
    (h : leastPad? offset s count w = some pad) :
    overspans (offset + pad) { s with requested := w }.adjusted count = false := by
  have hpad := List.find?_some h
  simpa using hpad

theorem of_fitting? {offset count : Nat} {s : FieldSize} {w : BitWidth} {pad : Fin 8}
    (h : fitting? offset s count = some (w, pad)) :
    s.requested.bits ≤ w.bits ∧
      overspans (offset + pad) { s with requested := w }.adjusted count = false := by
  obtain ⟨v, hv, hfit⟩ := List.exists_of_findSome?_eq_some h
  obtain ⟨pad', hpad, heq⟩ := Option.map_eq_some_iff.1 hfit
  cases heq
  exact ⟨mem_widths.1 hv, overspans_of_leastPad? hpad⟩

end Relocation

/-- No value of the fields reaches too far when the first field starts at bit `offset`. -/
def Unspanned (offset : Nat) : List Leaf → Prop
  | [] => True
  | l :: ls => overspans offset l.size.adjusted l.count.value = false ∧
      Unspanned (offset + l.bits) ls

@[simp] theorem unspanned_nil (offset : Nat) : Unspanned offset [] := trivial

@[simp] theorem unspanned_cons {offset : Nat} {l : Leaf} {ls : List Leaf} :
    Unspanned offset (l :: ls) ↔
      overspans offset l.size.adjusted l.count.value = false ∧ Unspanned (offset + l.bits) ls :=
  Iff.rfl

@[simp] theorem unspanned_append {offset : Nat} {as bs : List Leaf} :
    Unspanned offset (as ++ bs) ↔
      Unspanned offset as ∧ Unspanned (offset + total Leaf.bits as) bs := by
  induction as generalizing offset with
  | nil => simp
  | cons a as ih => simp only [List.cons_append, unspanned_cons, ih, total_cons, and_assoc,
      Nat.add_assoc]

theorem unspanned_padding {offset : Nat} {w : BitWidth} :
    Unspanned offset [.padding w] ↔ offset % 8 + w.bits ≤ 32 := by
  rw [unspanned_cons, ← overspans_one_eq_false_iff]
  exact and_iff_left (unspanned_nil _)

theorem Relocation.first?_eq_none_iff {index offset : Nat} {ls : List Leaf} :
    first? index offset ls = none ↔ Unspanned offset ls := by
  induction ls generalizing index offset with
  | nil => simp [first?]
  | cons l ls ih =>
    obtain ⟨w, pad, hfit⟩ := exists_fitting? offset l.size l.count.value
    rw [first?, unspanned_cons]
    cases hover : overspans offset l.size.adjusted l.count.value with
    | false => simp [ih]
    | true => simp [hfit]

/-- What the first relocation found says about the list: where the field stands, and how it is
to be moved. -/
theorem Relocation.of_first?_eq_some {index offset : Nat} {ls : List Leaf} {r : Relocation}
    (h : first? index offset ls = some r) :
    ∃ pre l post, ls = pre ++ l :: post ∧ Unspanned offset pre ∧
      r.index = index + pre.length ∧ r.offset = UInt32.ofNat (offset + total Leaf.bits pre) ∧
      overspans (offset + total Leaf.bits pre) l.size.adjusted l.count.value = true ∧
      fitting? (offset + total Leaf.bits pre) l.size l.count.value = some (r.width, r.pad) := by
  induction ls generalizing index offset with
  | nil => cases h
  | cons l ls ih =>
    rw [first?] at h
    cases hover : overspans offset l.size.adjusted l.count.value with
    | true =>
      rw [hover, if_pos rfl] at h
      obtain ⟨⟨w, pad⟩, hfit, rfl⟩ := Option.map_eq_some_iff.1 h
      exact ⟨[], l, ls, rfl, trivial, rfl, rfl, hover, hfit⟩
    | false =>
      rw [hover, if_neg Bool.false_ne_true] at h
      obtain ⟨pre, l', post, rfl, hpre, hindex, hoffset, hl, hfit⟩ := ih h
      rw [Nat.add_assoc, ← total_cons] at hoffset hl hfit
      refine ⟨l :: pre, l', post, rfl, ⟨hover, hpre⟩, ?_, hoffset, hl, hfit⟩
      rw [hindex, List.length_cons]
      omega

end ReportDescriptor
