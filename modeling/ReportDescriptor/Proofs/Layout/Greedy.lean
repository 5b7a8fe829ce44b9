import Mathlib.Data.List.FinRange
import ReportDescriptor.Proofs.Layout.Relocation
import ReportDescriptor.Proofs.Layout.Settle

/-!
# The greedy pass

Relocation starts its search anew after every change, and yet comes to what one pass from left to
right makes of the fields. The pass is described here without any search: a field stays where it
has come to lie unless one of its values reaches too far, and otherwise takes the least width and,
for that, the least padding with which none does.
-/

namespace ReportDescriptor

/-- None of `count` values, the first at bit `offset`, ends more than 32 bits after the start of
the byte it starts in. -/
def WithinReach (offset size count : Nat) : Prop :=
  ∀ i < count, (offset + i * size) % 8 + size ≤ 32

/-- The width is no less than requested, no value reaches too far, and every other choice of which
that is true has a greater width or, with the same width, more padding. -/
structure LeastFit (offset : Nat) (s : FieldSize) (count : Nat) (w : BitWidth) (pad : Fin 8) :
    Prop where
  requested_le : s.requested.bits ≤ w.bits
  withinReach : WithinReach (offset + pad) { s with requested := w }.adjusted count
  least : ∀ (v : BitWidth) (p : Fin 8), s.requested.bits ≤ v.bits →
    WithinReach (offset + p) { s with requested := v }.adjusted count →
      w.bits < v.bits ∨ w = v ∧ pad ≤ p

theorem LeastFit.unique {offset count : Nat} {s : FieldSize} {w w' : BitWidth} {pad pad' : Fin 8}
    (h : LeastFit offset s count w pad) (h' : LeastFit offset s count w' pad') :
    w = w' ∧ pad = pad' := by
  have hle := h.least w' pad' h'.requested_le h'.withinReach
  have hge := h'.least w pad h.requested_le h.withinReach
  rcases hle with hlt | ⟨rfl, hle⟩
  · rcases hge with hgt | ⟨rfl, -⟩
    · omega
    · exact absurd hlt (Nat.lt_irrefl _)
  · rcases hge with hgt | ⟨-, hge⟩
    · exact absurd hgt (Nat.lt_irrefl _)
    · exact ⟨rfl, Fin.le_antisymm hle hge⟩

theorem BitWidth.pairwise_all : BitWidth.all.Pairwise fun v w => v.bits < w.bits := by
  rw [BitWidth.all, List.pairwise_map]
  exact (List.pairwise_lt_finRange 32).imp fun h => Nat.succ_lt_succ h

namespace Relocation

/-- In a list in order, what is found first is found at the least member at which there is any. -/
theorem exists_least_of_findSome? {α β : Type} {r : α → α → Prop} {g : α → Option β} {as : List α}
    {b : β} (hsorted : as.Pairwise r) (h : as.findSome? g = some b) :
    ∃ a ∈ as, g a = some b ∧ ∀ a' ∈ as, g a' ≠ none → a = a' ∨ r a a' := by
  obtain ⟨before, a, after, rfl, hfound, hnone⟩ := List.findSome?_eq_some_iff.1 h
  refine ⟨a, List.mem_append_right _ List.mem_cons_self, hfound, ?_⟩
  intro a' ha' hsome
  rcases List.mem_append.1 ha' with hbefore | hafter
  · exact absurd (hnone a' hbefore) hsome
  · rcases List.mem_cons.1 hafter with rfl | hafter
    · exact .inl rfl
    · exact .inr (List.rel_of_pairwise_cons (List.pairwise_append.1 hsorted).2.1 hafter)

theorem pairwise_widths (s : FieldSize) : (widths s).Pairwise fun v w => v.bits < w.bits :=
  BitWidth.pairwise_all.filter _

theorem le_of_leastPad? {offset count : Nat} {s : FieldSize} {w : BitWidth} {pad p : Fin 8}
    (h : leastPad? offset s count w = some pad)
    (hp : overspans (offset + p) { s with requested := w }.adjusted count = false) : pad ≤ p := by
  rw [leastPad?, List.find?_eq_findSome?_guard] at h
  obtain ⟨q, -, hq, hleast⟩ :=
    exists_least_of_findSome? (List.pairwise_lt_finRange 8) h
  obtain ⟨rfl, -⟩ := Option.guard_eq_some_iff.1 hq
  rcases hleast p (List.mem_finRange p) (by simp [hp]) with rfl | hlt
  · exact Fin.le_refl _
  · exact Fin.le_of_lt hlt

theorem leastPad?_ne_none {offset count : Nat} {s : FieldSize} {w : BitWidth} {p : Fin 8}
    (hp : overspans (offset + p) { s with requested := w }.adjusted count = false) :
    leastPad? offset s count w ≠ none := by
  intro h
  have hover := List.find?_eq_none.1 h p (List.mem_finRange p)
  rw [hp] at hover
  exact hover rfl

/-- The search for a fit ends, and with the least one. -/
theorem leastFit_of_fitting? {offset count : Nat} {s : FieldSize} {w : BitWidth} {pad : Fin 8}
    (h : fitting? offset s count = some (w, pad)) : LeastFit offset s count w pad := by
  obtain ⟨hrequested, hreach⟩ := of_fitting? h
  refine ⟨hrequested, overspans_eq_false_iff.1 hreach, ?_⟩
  intro v p hv hp
  rw [WithinReach, ← overspans_eq_false_iff] at hp
  obtain ⟨u, -, hu, hleast⟩ := exists_least_of_findSome? (pairwise_widths s) h
  obtain ⟨q, hq, heq⟩ := Option.map_eq_some_iff.1 hu
  cases heq
  have hfound : (leastPad? offset s count v).map (v, ·) ≠ none :=
    fun hnone => leastPad?_ne_none hp (Option.map_eq_none_iff.1 hnone)
  rcases hleast v (mem_widths.2 hv) hfound with rfl | hlt
  · exact .inr ⟨rfl, le_of_leastPad? hq hp⟩
  · exact .inl hlt

end Relocation

namespace Layout

/-- The second list is what the pass makes of the first one, from bit `offset` on. -/
inductive GreedilyPlaced : Nat → List Leaf → List Leaf → Prop
  | nil {offset : Nat} : GreedilyPlaced offset [] []
  | stay {offset : Nat} {l : Leaf} {ls ms : List Leaf}
      (hreach : WithinReach offset l.size.adjusted l.count.value)
      (hrest : GreedilyPlaced (offset + l.bits) ls ms) :
      GreedilyPlaced offset (l :: ls) (l :: ms)
  | move {offset : Nat} {l : Leaf} {ls ms : List Leaf} {w : BitWidth} {pad : Fin 8}
      (hover : ¬ WithinReach offset l.size.adjusted l.count.value)
      (hleast : LeastFit offset l.size l.count.value w pad)
      (hrest : GreedilyPlaced (offset + pad + (l.withRequested w).bits) ls ms) :
      GreedilyPlaced offset (l :: ls) (padBefore pad ++ l.withRequested w :: ms)

variable {offset : Nat} {ls ms : List Leaf}

theorem greedilyPlaced_placeAll (offset : Nat) (ls : List Leaf) :
    GreedilyPlaced offset ls (placeAll offset ls) := by
  induction ls generalizing offset with
  | nil => exact .nil
  | cons l ls ih =>
    rw [placeAll]
    cases hover : overspans offset l.size.adjusted l.count.value with
    | false =>
      rw [place_of_not_overspans hover, total_cons, total_nil, Nat.add_zero, List.singleton_append]
      exact .stay (overspans_eq_false_iff.1 hover) (ih _)
    | true =>
      obtain ⟨w, pad, hfit⟩ := Relocation.exists_fitting? offset l.size l.count.value
      have hnot : ¬ WithinReach offset l.size.adjusted l.count.value := by
        rw [WithinReach, ← overspans_eq_false_iff, hover]
        exact fun h => Bool.false_ne_true h.symm
      rw [place_of_fitting? hover hfit, List.append_assoc, List.singleton_append, total_append,
        total_padBefore, total_cons, total_nil, Nat.add_zero, ← Nat.add_assoc]
      exact .move hnot (Relocation.leastFit_of_fitting? hfit) (ih _)

/-- The pass leaves no choice. -/
theorem GreedilyPlaced.unique {ns : List Leaf} (h : GreedilyPlaced offset ls ms)
    (h' : GreedilyPlaced offset ls ns) : ms = ns := by
  induction h generalizing ns with
  | nil =>
    cases h'
    rfl
  | stay hreach _ ih =>
    cases h' with
    | stay _ hrest => rw [ih hrest]
    | move hover _ _ => exact absurd hreach hover
  | move hover hleast _ ih =>
    cases h' with
    | stay hreach _ => exact absurd hreach hover
    | move _ hleast' hrest =>
      obtain ⟨rfl, rfl⟩ := hleast.unique hleast'
      rw [ih hrest]

/-- Relocation ends after at most one change for each leaf. It ends because nothing overspans any
more, and not for want of a fit: there is one wherever a field may come to lie. What it ends with
is what the greedy pass makes of the leaves. -/
theorem correctOverspans_greedy (f : FieldForest) :
    (∃ n ≤ f.leaves.length, Settles relocate? n f (correctOverspans f)) ∧
      (∀ g, relocate? g = none ↔ Unspanned 0 g.leaves) ∧
      (∀ offset s count, ∃ w pad, Relocation.fitting? offset s count = some (w, pad) ∧
        LeastFit offset s count w pad) ∧
      ∀ ls, GreedilyPlaced 0 f.leaves ls ↔ ls = (correctOverspans f).2.leaves := by
  refine ⟨?_, fun g => relocate?_eq_none_iff, ?_, ?_⟩
  · exact settles_settle (relocate?_eq_none_iff.2 (unspanned_correctOverspans f))
  · intro offset s count
    obtain ⟨w, pad, hfit⟩ := Relocation.exists_fitting? offset s count
    exact ⟨w, pad, hfit, Relocation.leastFit_of_fitting? hfit⟩
  · intro ls
    have hplaced := greedilyPlaced_placeAll 0 f.leaves
    rw [leaves_correctOverspans]
    constructor
    · exact fun h => h.unique hplaced
    · rintro rfl
      exact hplaced

end Layout

end ReportDescriptor
