import ReportDescriptor.Proofs.Emission.Bytes
import ReportDescriptor.Proofs.Emission.Combination

/-!
# Lengths

Each option alone makes a descriptor at most shorter. Elision leaves items out. A shared main item
saves one for every field but the first, and its count never takes more bytes than theirs together.
-/

namespace ReportDescriptor

namespace ShortItem

def byteLength (i : ShortItem) : Nat :=
  i.toBytes.length

theorem length_flatMap_toBytes (is : List ShortItem) :
    (is.flatMap toBytes).length = total byteLength is := by
  induction is with
  | nil => rfl
  | cons i is ih => rw [List.flatMap_cons, List.length_append, ih, total_cons, byteLength]

theorem byteLength_unsigned (k : ItemKind) (v : UInt32) :
    (unsigned k v).byteLength = Truncation.unsignedLength v + 1 :=
  congrArg (· + 1) (Truncation.length_unsigned v)

theorem two_le_byteLength_unsigned (k : ItemKind) (v : UInt32) :
    2 ≤ (unsigned k v).byteLength := by
  rw [byteLength_unsigned, Truncation.unsignedLength]
  split
  · omega
  · split <;> omega

theorem byteLength_unsigned_le (k : ItemKind) (v : UInt32) : (unsigned k v).byteLength ≤ 5 := by
  rw [byteLength_unsigned, Truncation.unsignedLength]
  split
  · omega
  · split <;> omega

theorem byteLength_ofNat_of_lt (k : ItemKind) {n : Nat} (h : n < 256) :
    (ofNat k n).byteLength = 2 := by
  have hvalue : (UInt32.ofNat n).toNat < 256 := by
    rw [UInt32.toNat_ofNat']
    omega
  rw [ofNat, byteLength_unsigned, Truncation.unsignedLength, if_pos hvalue]

end ShortItem

theorem GlobalState.total_dropRedundant_le (w : ShortItem → Nat) (t : GlobalState)
    (is : List ShortItem) : total w (t.dropRedundant is) ≤ total w is := by
  fun_induction dropRedundant t is with
  | case1 => exact Nat.le_refl _
  | case2 t i is hred ih => exact Nat.le_trans ih (Nat.le_add_left _ _)
  | case3 t i is hred ih => exact Nat.add_le_add_left ih _

namespace Emission

open ShortItem

/-- The bytes of a Report Count item. -/
def countLength (n : Nat) : Nat :=
  (ofNat .reportCount n).byteLength

@[simp] theorem countLength_one : countLength 1 = 2 := rfl

theorem countLength_of_lt {n : Nat} (h : n < 256) : countLength n = 2 :=
  byteLength_ofNat_of_lt _ h

theorem countLength_le_five (n : Nat) : countLength n ≤ 5 :=
  byteLength_unsigned_le _ _

/-- From two fields on, sharing saves more bytes than the count can take more. -/
theorem countLength_le {n : Nat} (h : 2 ≤ n) : countLength n ≤ 2 * (n - 1) := by
  have hlong := countLength_le_five n
  by_cases hshort : n < 256
  · rw [countLength_of_lt hshort]
    omega
  · omega

theorem countLength_add_two_le {n : Nat} (h : 3 ≤ n) : countLength n + 2 ≤ 2 * (n - 1) := by
  have hlong := countLength_le_five n
  by_cases hshort : n < 256
  · rw [countLength_of_lt hshort]
    omega
  · omega

/-- What all members of a run say alike, but for the count. -/
def Run.common (r : ReportKind) (q : Run) : List ShortItem :=
  .ofNat .usagePage q.first.usage.page.toNat :: (settings q.first.field ++
    [.main r (UInt32.ofNat (q.first.field.flags.word .variables))])

section Run

variable (r : ReportKind) {q : Run} (hothers : q.others ≠ []) (w : ShortItem → Nat)
include hothers

theorem total_run : total w (itemsOf (q.events (some r))) =
    total w (q.common r) + total w (q.members.map fun v => .ofNat .usage v.usage.id.toNat) +
      w (.ofNat .reportCount q.members.length) := by
  rw [itemsOf_run r hothers, Run.common]
  simp only [total_cons, total_append, total_nil]
  omega

theorem total_members (hq : q.IsUniform) : total w (q.leaves.flatMap (leafItems r)) =
    q.members.length * (total w (q.common r) + w (.ofNat .reportCount 1)) +
      total w (q.members.map fun v => .ofNat .usage v.usage.id.toNat) := by
  have hmember : ∀ v ∈ q.members, total w (leafItems r (.single v)) =
      total w (q.common r) + w (.ofNat .reportCount 1) + w (.ofNat .usage v.usage.id.toNat) := by
    intro v hv
    rw [leafItems_member r hq hothers v hv, Run.common]
    simp only [total_cons, total_append, total_nil]
    omega
  rw [Run.leaves]
  generalize q.members = vs at hmember ⊢
  induction vs with
  | nil => rw [List.length_nil, Nat.zero_mul]; rfl
  | cons v vs ih =>
    rw [List.forall_mem_cons] at hmember
    rw [List.map_cons, List.flatMap_cons, total_append, hmember.1, ih hmember.2, List.length_cons,
      Nat.succ_mul, List.map_cons, total_cons]
    omega

/-- A run saves what all members but the first would repeat. Its count is another than theirs. -/
theorem total_run_add (hq : q.IsUniform) :
    total w (itemsOf (q.events (some r))) + q.others.length * total w (q.common r) +
        q.members.length * w (.ofNat .reportCount 1) =
      total w (q.leaves.flatMap (leafItems r)) + w (.ofNat .reportCount q.members.length) := by
  rw [total_run r hothers, total_members r hothers w hq, Nat.mul_add, Run.length_members,
    Nat.succ_mul q.others.length (total w (q.common r))]
  omega

end Run

/-- At least so many bytes of main items are saved where the fields of a block share one. -/
def saving (b : List Leaf) : Nat :=
  2 * (b.length - 1)

/-- From two fields on, the count of a run takes less than the counts and main items it saves. -/
theorem total_byteLength_run_le (r : ReportKind) {q : Run} (hq : q.IsUniform)
    (hothers : q.others ≠ []) :
    total byteLength (itemsOf (q.events (some r))) + saving q.leaves ≤
      total byteLength (q.leaves.flatMap (leafItems r)) := by
  have hrun := total_run_add r hothers byteLength hq
  have hpos := List.length_pos_iff.2 hothers
  have hcount : countLength (q.others.length + 1) ≤ 2 * q.others.length := countLength_le (by omega)
  have hcommon : 2 ≤ total byteLength (q.common r) := by
    rw [Run.common, total_cons]
    exact Nat.le_add_right_of_le (two_le_byteLength_unsigned _ _)
  have hrepeated := Nat.mul_le_mul_left q.others.length hcommon
  change _ + _ * countLength 1 = _ + countLength _ at hrun
  rw [countLength_one, Run.length_members] at hrun
  rw [saving, Run.length_leaves]
  omega

namespace Combines

variable {bs : List (List Leaf)} {is js : List ShortItem}

/-- Where no fields share, the items are the same. -/
theorem eq_of_forall_length (h : Combines bs is js) (hbs : ∀ b ∈ bs, ¬2 ≤ b.length) :
    is = js := by
  induction h with
  | nil => rfl
  | item hi _ ih => rw [ih hbs]
  | alone r l _ ih => rw [ih fun b hb => hbs b (List.mem_cons_of_mem _ hb)]
  | @shared bs is js r q hq hothers _ ih =>
    have hlength := hbs q.leaves List.mem_cons_self
    have hpos := List.length_pos_iff.2 hothers
    rw [Run.length_leaves] at hlength
    omega

/-- A weight of items of which every run saves its part. -/
theorem total_add_saving_le (h : Combines bs is js) {w : ShortItem → Nat}
    (hw : ∀ (r : ReportKind) {q : Run}, q.IsUniform → q.others ≠ [] →
      total w (itemsOf (q.events (some r))) + saving q.leaves ≤
        total w (q.leaves.flatMap (leafItems r))) :
    total w is + total saving bs ≤ total w js := by
  induction h with
  | nil => exact Nat.le_refl _
  | item hi _ ih =>
    rw [total_cons, total_cons]
    omega
  | alone r l _ ih =>
    rw [total_append, total_append, total_cons, saving, List.length_singleton]
    omega
  | shared r hq hothers _ ih =>
    have hrun := hw r hq hothers
    rw [total_append, total_append, total_cons]
    omega

theorem total_byteLength_lt_iff (h : Combines bs is js) :
    total byteLength is < total byteLength js ↔ ∃ b ∈ bs, 2 ≤ b.length := by
  constructor
  · intro hlt
    by_contra hnone
    rw [h.eq_of_forall_length fun b hb hlength => hnone ⟨b, hb, hlength⟩] at hlt
    exact Nat.lt_irrefl _ hlt
  · rintro ⟨b, hb, hlength⟩
    have hle := h.total_add_saving_le total_byteLength_run_le
    have hsaving : saving b ≤ total saving bs := le_total_of_mem hb
    rw [saving] at hsaving
    omega

end Combines

end Emission

namespace Descriptor

open Emission

theorem exists_two_le_length_iff (d : Descriptor) : (∃ b ∈ d.blocks, 2 ≤ b.length) ↔
    ∃ r ∈ d.reports, ∃ s ∈ r.children.siblings, FieldForest.HasCombinable s := by
  simp only [blocks, List.mem_flatMap, ← FieldForest.exists_two_le_length_iff]
  constructor
  · rintro ⟨b, ⟨r, hr, hb⟩, hlength⟩
    exact ⟨r, hr, b, hb, hlength⟩
  · rintro ⟨r, hr, b, hb, hlength⟩
    exact ⟨b, ⟨r, hr, hb⟩, hlength⟩

/-- Elision alone never makes a descriptor longer, and neither does optimization, which makes it
shorter exactly where two neighbours can share a main item. -/
theorem length_toBytes_le (d : Descriptor) (packing : Packing) :
    (∀ optimize, ∃ full kept, (d.toBytes ⟨packing, optimize, false⟩).result = .ok full ∧
      (d.toBytes ⟨packing, optimize, true⟩).result = .ok kept ∧ kept.length ≤ full.length) ∧
    ∃ apart together, (d.toBytes ⟨packing, false, false⟩).result = .ok apart ∧
      (d.toBytes ⟨packing, true, false⟩).result = .ok together ∧
      together.length ≤ apart.length ∧
      (together.length < apart.length ↔
        ∃ r ∈ d.reports, ∃ s ∈ r.children.siblings, FieldForest.HasCombinable s) := by
  constructor
  · intro optimize
    refine ⟨_, _, result_toBytes (d.result_items ⟨packing, optimize, false⟩),
      result_toBytes (d.result_items ⟨packing, optimize, true⟩), ?_⟩
    rw [ShortItem.length_flatMap_toBytes, ShortItem.length_flatMap_toBytes]
    exact GlobalState.total_dropRedundant_le _ _ _
  · refine ⟨_, _, result_toBytes (d.result_items ⟨packing, false, false⟩),
      result_toBytes (d.result_items ⟨packing, true, false⟩), ?_⟩
    have hcombines := combines_applications d
    have hle := hcombines.total_add_saving_le total_byteLength_run_le
    rw [ShortItem.length_flatMap_toBytes, ShortItem.length_flatMap_toBytes,
      ← d.exists_two_le_length_iff]
    exact ⟨Nat.le_of_add_right_le hle, hcombines.total_byteLength_lt_iff⟩

end Descriptor

end ReportDescriptor
