import ReportDescriptor.Proofs.Field.Packing
import ReportDescriptor.Proofs.Layout.Appending
import ReportDescriptor.Proofs.Layout.Greedy

/-!
# Which fields are grown

Whether the values of a field can be in reach at all, at the best of starts, depends on their size
and number alone. So the width a field ends up with does not depend on the fields around it: only a
few widths without a packing are ever grown, and each of them always to the same width.
-/

namespace ReportDescriptor

namespace WithinReach

variable {start offset size count : Nat}

theorem congr_mod (h : start % 8 = offset % 8) (hreach : WithinReach start size count) :
    WithinReach offset size count := by
  intro i hi
  have hvalue := hreach i hi
  rw [Nat.add_mod] at hvalue ⊢
  rwa [← h]

/-- With the right padding a field starts anywhere within a byte. -/
theorem exists_pad (hreach : WithinReach start size count) (offset : Nat) :
    ∃ pad : Fin 8, WithinReach (offset + pad) size count := by
  refine ⟨⟨(start % 8 + (8 - offset % 8)) % 8, Nat.mod_lt _ (by omega)⟩, hreach.congr_mod ?_⟩
  simp only
  omega

/-- Values of up to 25 bits are in reach wherever they start. -/
theorem of_le (h : size ≤ 25) : WithinReach offset size count := by
  intro i _
  omega

end WithinReach

/-- No start brings all the values into reach if they are five or more of 27 bits, or three or more
of 29 to 31 bits. Other values have a start that does. -/
theorem exists_withinReach_iff {size count : Nat} (hsize : size ≤ 32) :
    (∃ start, WithinReach start size count) ↔
      ¬ (size = 27 ∧ 5 ≤ count ∨ (29 ≤ size ∧ size ≤ 31) ∧ 3 ≤ count) := by
  constructor
  · rintro ⟨start, h⟩ (⟨rfl, hcount⟩ | ⟨⟨hge, hle⟩, hcount⟩)
    · have h₀ := h 0 (by omega)
      have h₁ := h 1 (by omega)
      have h₂ := h 2 (by omega)
      have h₃ := h 3 (by omega)
      have h₄ := h 4 (by omega)
      omega
    · have h₀ := h 0 (by omega)
      have h₁ := h 1 (by omega)
      have h₂ := h 2 (by omega)
      omega
  · intro h
    -- The others lie at the start of a byte, those of 27 bits two bits into it, and pairs of up to
    -- 31 bits end with a byte.
    have hcases : size ≤ 25 ∨ (size = 26 ∨ size = 28 ∨ size = 32) ∨ size = 27 ∧ count ≤ 4 ∨
        (29 ≤ size ∧ size ≤ 31) ∧ count ≤ 2 := by omega
    rcases hcases with hsmall | heven | ⟨rfl, hcount⟩ | ⟨hlarge, hcount⟩
    · exact ⟨0, .of_le hsmall⟩
    · refine ⟨0, fun i _ => ?_⟩
      rcases heven with rfl | rfl | rfl <;> omega
    · refine ⟨2, fun i hi => ?_⟩
      obtain rfl | rfl | rfl | rfl : i = 0 ∨ i = 1 ∨ i = 2 ∨ i = 3 := by omega
      all_goals omega
    · refine ⟨32 - size, fun i hi => ?_⟩
      obtain rfl | rfl : i = 0 ∨ i = 1 := by omega
      · omega
      · omega

/-- A field that is not packed and has values which no start brings into reach at the size asked
for. With `w` bits there is such a start, and with fewer there is none. -/
def FieldSize.Outgrows (s : FieldSize) (count : Nat) (w : BitWidth) : Prop :=
  s.packing = .tight ∧
    (s.requested.bits = 27 ∧ 5 ≤ count ∧ w.bits = 28 ∨
      (29 ≤ s.requested.bits ∧ s.requested.bits ≤ 31) ∧ 3 ≤ count ∧ w.bits = 32)

/-- What becomes of the width of a field of this size, whatever is before it. -/
def FieldSize.SettlesAt (s : FieldSize) (count : Nat) (w : BitWidth) : Prop :=
  w = s.requested ∧ (∀ v, ¬ s.Outgrows count v) ∨ s.Outgrows count w

namespace FieldSize

variable {s : FieldSize} {offset count : Nat} {w : BitWidth}

theorem exists_withinReach_adjusted_iff :
    (∃ start, WithinReach start s.adjusted count) ↔ ∀ v, ¬ s.Outgrows count v := by
  rw [exists_withinReach_iff s.adjusted_le]
  obtain ⟨r, packing⟩ := s
  cases packing with
  | tight =>
    constructor
    · rintro h v ⟨-, hv⟩
      simp only [adjusted_tight] at h hv
      omega
    · intro h hnot
      simp only [adjusted_tight] at hnot
      rcases hnot with hnot | hnot
      · exact h ⟨28, by omega, by omega⟩ ⟨rfl, .inl ⟨hnot.1, hnot.2, rfl⟩⟩
      · exact h .max ⟨rfl, .inr ⟨hnot.1, hnot.2, rfl⟩⟩
  | bytes n pos =>
    have hmod : (FieldSize.mk r (.bytes n pos)).adjusted % 8 = 0 :=
      Packing.roundUp_bytes_mod n pos _
    constructor
    · rintro - v ⟨htight, -⟩
      cases htight
    · intro _
      omega

/-- The least width with which the values can be in reach does not depend on the offset. -/
theorem settlesAt_of_leastFit {pad : Fin 8} (h : LeastFit offset s count w pad) :
    s.SettlesAt count w := by
  have hle (v : BitWidth) (hv : s.requested.bits ≤ v.bits)
      (hreach : ∃ start, WithinReach start { s with requested := v }.adjusted count) :
      w.bits ≤ v.bits := by
    obtain ⟨start, hstart⟩ := hreach
    obtain ⟨p, hp⟩ := hstart.exists_pad offset
    rcases h.least v p hv hp with hlt | ⟨rfl, -⟩
    · exact Nat.le_of_lt hlt
    · exact Nat.le_refl _
  by_cases hout : ∀ v, ¬ s.Outgrows count v
  · have hw := hle s.requested (Nat.le_refl _) (exists_withinReach_adjusted_iff.2 hout)
    exact .inl ⟨BitWidth.ext (Nat.le_antisymm hw h.requested_le), hout⟩
  · obtain ⟨v, htight, hv⟩ := not_forall_not.1 hout
    have hadjusted (u : BitWidth) : { s with requested := u }.adjusted = u.bits := by
      rw [adjusted, htight]
      rfl
    have hfits (u : BitWidth) :
        (∃ start, WithinReach start { s with requested := u }.adjusted count) ↔
          ¬ (u.bits = 27 ∧ 5 ≤ count ∨ (29 ≤ u.bits ∧ u.bits ≤ 31) ∧ 3 ≤ count) := by
      rw [hadjusted, exists_withinReach_iff u.le_max]
    have hw := (hfits w).1 ⟨_, h.withinReach⟩
    have hrequested := h.requested_le
    refine .inr ⟨htight, ?_⟩
    rcases hv with ⟨hbits, hcount, -⟩ | ⟨⟨hge, hle'⟩, hcount, -⟩
    · have hle₂₈ := hle ⟨28, by omega, by omega⟩ (by simp only; omega) ((hfits _).2 (by simp))
      simp only at hle₂₈
      exact .inl ⟨hbits, hcount, by omega⟩
    · have hmax := w.le_max
      exact .inr ⟨⟨hge, hle'⟩, hcount, by omega⟩

end FieldSize

/-- The same field at the width it settles at. -/
def Leaf.GrowsTo (l m : Leaf) : Prop :=
  ∃ w, m = l.withRequested w ∧ l.size.SettlesAt l.count.value w

/-- Up to 26 bits, at 28 bits, with one or two values or with a packing a field is never grown. -/
theorem Leaf.GrowsTo.eq_of_kept {l m : Leaf} (h : l.GrowsTo m)
    (hkept : l.size.requested.bits ≤ 26 ∨ l.size.requested.bits = 28 ∨ l.count.value ≤ 2 ∨
      l.size.packing ≠ .tight) : m = l := by
  obtain ⟨w, rfl, ⟨rfl, -⟩ | ⟨htight, hout⟩⟩ := h
  · exact l.withRequested_requested
  · rcases hkept with hsmall | heven | hfew | hpacked
    · omega
    · omega
    · omega
    · exact absurd htight hpacked

namespace Layout

/-- The field at the width it settles at, behind some padding if it is one of more than 25 bits. -/
def PlacedAs (l : Leaf) (ms : List Leaf) : Prop :=
  ∃ m, ∃ pad : Fin 8, ms = padBefore pad ++ [m] ∧ l.GrowsTo m ∧ (l.size.adjusted ≤ 25 → pad = 0)

theorem placedAs_place (offset : Nat) (l : Leaf) : PlacedAs l (place offset l) := by
  cases hover : overspans offset l.size.adjusted l.count.value with
  | false =>
    have hreach : WithinReach offset l.size.adjusted l.count.value :=
      overspans_eq_false_iff.1 hover
    rw [place_of_not_overspans hover]
    refine ⟨l, 0, rfl, ⟨_, l.withRequested_requested.symm, .inl ⟨rfl, ?_⟩⟩, fun _ => rfl⟩
    exact FieldSize.exists_withinReach_adjusted_iff.1 ⟨offset, hreach⟩
  | true =>
    obtain ⟨w, pad, hfit⟩ := Relocation.exists_fitting? offset l.size l.count.value
    have hleast := Relocation.leastFit_of_fitting? hfit
    rw [place_of_fitting? hover hfit]
    refine ⟨_, pad, rfl, ⟨w, rfl, FieldSize.settlesAt_of_leastFit hleast⟩, fun hsmall => ?_⟩
    have hreach : WithinReach offset l.size.adjusted l.count.value := .of_le hsmall
    rw [WithinReach, ← overspans_eq_false_iff, hover] at hreach
    exact absurd hreach.symm Bool.false_ne_true

theorem exists_flatten_eq_placeAll (offset : Nat) (ls : List Leaf) :
    ∃ placed, placeAll offset ls = List.flatten placed ∧ List.Forall₂ PlacedAs ls placed := by
  induction ls generalizing offset with
  | nil => exact ⟨[], rfl, .nil⟩
  | cons l ls ih =>
    obtain ⟨placed, heq, hplaced⟩ := ih (offset + total Leaf.bits (place offset l))
    exact ⟨place offset l :: placed, by rw [placeAll, heq, List.flatten_cons],
      .cons (placedAs_place offset l) hplaced⟩

theorem filter_padBefore (pad : Fin 8) : (padBefore pad).filter (fun l => !l.isPadding) = [] := by
  rw [padBefore]
  split <;> rfl

/-- Without the paddings, each field is left with itself. -/
theorem PlacedAs.filter {l : Leaf} {ms : List Leaf} (h : PlacedAs l ms) :
    List.Forall₂ Leaf.GrowsTo ([l].filter fun l => !l.isPadding)
      (ms.filter fun l => !l.isPadding) := by
  obtain ⟨m, pad, rfl, hgrows, -⟩ := h
  have hpad : m.isPadding = l.isPadding := by
    obtain ⟨w, rfl, -⟩ := hgrows
    exact l.isPadding_withRequested w
  rw [List.filter_append, filter_padBefore, List.nil_append, List.filter_singleton,
    List.filter_singleton, hpad]
  cases l.isPadding with
  | true => exact .nil
  | false => exact .cons hgrows .nil

theorem forall₂_filter_flatten {ls : List Leaf} {placed : List (List Leaf)}
    (h : List.Forall₂ PlacedAs ls placed) :
    List.Forall₂ Leaf.GrowsTo (ls.filter fun l => !l.isPadding)
      (placed.flatten.filter fun l => !l.isPadding) := by
  induction h with
  | nil => exact .nil
  | cons hplaced _ ih =>
    rw [List.flatten_cons, List.filter_append, ← List.singleton_append, List.filter_append]
    exact List.rel_append hplaced.filter ih

theorem filter_layout (f : FieldForest) :
    ((layout f).2.leaves.filter fun l => !l.isPadding) =
      (placeAll 0 f.leaves).filter fun l => !l.isPadding := by
  rw [← map_snd_placements 0, ← map_snd_placements 0, placements_layout]

end Layout

namespace Report

open Layout

/-- The fields of a report are those it was built from at the widths they settle at. Relocation
alone has moved them there, and has put padding before no field of 25 bits or less. -/
theorem growth_of_build {kind : ReportKind} {id : UInt8} {children : FieldForest} {r : Report}
    (h : (build kind id children).result = .ok r) :
    List.Forall₂ Leaf.GrowsTo (children.leaves.filter fun l => !l.isPadding)
        (r.leaves.filter fun l => !l.isPadding) ∧
      (∀ l m : Leaf, l.GrowsTo m → (l.size.requested.bits ≤ 26 ∨ l.size.requested.bits = 28 ∨
        l.count.value ≤ 2 ∨ l.size.packing ≠ .tight) → m = l) ∧
      ∃ placed, (correctOverspans children).2.leaves = List.flatten placed ∧
        List.Forall₂ PlacedAs children.leaves placed := by
  obtain ⟨-, -, -, -, rfl⟩ := build_eq_ok_iff.1 h
  obtain ⟨placed, heq, hplaced⟩ := exists_flatten_eq_placeAll 0 children.leaves
  refine ⟨?_, fun _ _ hgrows => hgrows.eq_of_kept, placed, ?_, hplaced⟩
  · rw [Report.leaves, filter_layout, heq]
    exact forall₂_filter_flatten hplaced
  · rw [leaves_correctOverspans, heq]

theorem growth_sample :
    (build .input 1 (Sample.fields .input)).result = .ok (Sample.report .input 1) ∧
      List.Forall₂ Leaf.GrowsTo ((Sample.fields .input).leaves.filter fun l => !l.isPadding)
        ((Sample.report .input 1).leaves.filter fun l => !l.isPadding) ∧
      (∀ l m : Leaf, l.GrowsTo m → (l.size.requested.bits ≤ 26 ∨ l.size.requested.bits = 28 ∨
        l.count.value ≤ 2 ∨ l.size.packing ≠ .tight) → m = l) ∧
      ∃ placed, (correctOverspans (Sample.fields .input)).2.leaves = List.flatten placed ∧
        List.Forall₂ PlacedAs (Sample.fields .input).leaves placed :=
  have hbuild := Sample.report_of_build .input (by decide : (1 : UInt8) ≠ 0)
  ⟨hbuild, growth_of_build hbuild⟩

end Report

end ReportDescriptor
