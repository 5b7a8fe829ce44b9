import ReportDescriptor.Proofs.Layout.Periodicity
import ReportDescriptor.Proofs.Layout.Words

/-!
# Words are never wrong

A layout in words fails where a sum is too large for them. Where it does not fail it has the outcome
of the layout in numbers of any size: for the position of a field only its place within a byte
counts, which a word keeps, and the totals of the records are words in both.
-/

namespace ReportDescriptor

namespace Words

open Layout

variable {α β : Type}

/-- A computation that has this value, if any. -/
def Exact (x : Checked α) (a : α) : Prop :=
  ∀ b, x = .ok b → b = a

namespace Exact

theorem ok (a : α) : Exact (.ok a) a := fun _ h => (Except.ok.inj h).symm

theorem bind {x : Checked α} {f : α → Checked β} {a : α} {b : β} (hx : Exact x a)
    (hf : Exact (f a) b) : Exact (x >>= f) b := by
  intro c hc
  obtain ⟨a', ha', hc⟩ := bind_eq_ok_iff.1 hc
  obtain rfl := hx a' ha'
  exact hf c hc

theorem add (a b : UInt32) : Exact (Words.add a b) (a + b) := by
  intro c hc
  rw [Words.add] at hc
  split at hc
  · exact (Except.ok.inj hc).symm
  · cases hc

theorem add_ofNat (m n : Nat) :
    Exact (Words.add (UInt32.ofNat m) (UInt32.ofNat n)) (UInt32.ofNat (m + n)) := by
  rw [UInt32.ofNat_add]
  exact add _ _

theorem findM? {p : α → Checked Bool} {q : α → Bool} (h : ∀ a, Exact (p a) (q a)) (as : List α) :
    Exact (as.findM? p) (as.find? q) := by
  induction as with
  | nil => exact ok none
  | cons a as ih =>
    rw [List.findM?, List.find?]
    refine (h a).bind ?_
    cases q a with
    | true => exact ok (some a)
    | false => exact ih

theorem findSomeM? {p : α → Checked (Option β)} {q : α → Option β} (h : ∀ a, Exact (p a) (q a))
    (as : List α) : Exact (as.findSomeM? p) (as.findSome? q) := by
  induction as with
  | nil => exact ok none
  | cons a as ih =>
    rw [List.findSomeM?, List.findSome?]
    refine (h a).bind ?_
    cases q a with
    | some b => exact ok (some b)
    | none => exact ih

end Exact

theorem exact_sum (f : FieldForest) : Exact (sum bits 0 f) (UInt32.ofNat f.bits) := by
  intro n hn
  rw [← toNat_of_sum_bits hn, UInt32.ofNat_toNat]

theorem exact_leastPad? (offset : Nat) (s : FieldSize) (c : FieldCount) (w : BitWidth) :
    Exact (leastPad? (UInt32.ofNat offset) s (UInt32.ofNat c.value) w)
      (Relocation.leastPad? offset s c.value w) := by
  rw [leastPad?, Relocation.leastPad?]
  refine Exact.findM? (fun (pad : Fin 8) => ?_) _
  refine (Exact.add_ofNat offset pad).bind ?_
  rw [overspans_ofNat, toNat_ofNat_count]
  exact .ok _

theorem exact_fitting? (offset : Nat) (s : FieldSize) (c : FieldCount) :
    Exact (fitting? (UInt32.ofNat offset) s (UInt32.ofNat c.value))
      (Relocation.fitting? offset s c.value) := by
  rw [fitting?, Relocation.fitting?]
  refine Exact.findSomeM? (fun w => ?_) _
  exact (exact_leastPad? offset s c w).bind (.ok _)

theorem exact_first? (index offset : Nat) (ls : List Leaf) :
    Exact (first? index (UInt32.ofNat offset) ls) (Relocation.first? index offset ls) := by
  induction ls generalizing index offset with
  | nil => exact .ok none
  | cons l ls ih =>
    rw [first?, count_eq, ok_bind, overspans_ofNat, toNat_ofNat_count, Relocation.first?]
    split
    · exact (exact_fitting? offset l.size l.count).bind (.ok _)
    · rw [bits_eq, ok_bind]
      exact (Exact.add_ofNat offset l.bits).bind (ih (index + 1) (offset + l.bits))

theorem exact_relocate? (f : FieldForest) : Exact (Words.relocate? f) (Layout.relocate? f) :=
  (exact_first? 0 0 f.leaves).bind (.ok _)

theorem exact_firstMerger? (index offset : Nat) (ls : List Leaf) :
    Exact (Words.firstMerger? index (UInt32.ofNat offset) ls)
      (Layout.firstMerger? index offset ls) := by
  induction ls generalizing index offset with
  | nil => exact .ok none
  | cons a ls ih =>
    cases ls with
    | nil => exact .ok none
    | cons b ls =>
      rw [Words.firstMerger?, merged?_eq, ok_bind, Layout.firstMerger?]
      cases Layout.merged? offset a b with
      | some w => exact .ok _
      | none =>
        rw [bits_eq, ok_bind]
        exact (Exact.add_ofNat offset a.bits).bind (ih (index + 1) (offset + a.bits))

theorem exact_merge? (f : FieldForest) : Exact (Words.merge? f) (Layout.merge? f) := by
  refine (exact_firstMerger? 0 0 f.leaves).bind ?_
  rw [Layout.merge?]
  cases Layout.firstMerger? 0 0 f.leaves <;> exact .ok _

theorem exact_settle {words? : FieldForest → Checked (Option (List LogRecord × FieldForest))}
    {change? : FieldForest → Option (List LogRecord × FieldForest)}
    (h : ∀ f, Exact (words? f) (change? f)) (fuel : Nat) (f : FieldForest) :
    Exact (Words.settle words? fuel f) (Layout.settle change? fuel f) := by
  induction fuel generalizing f with
  | zero => exact (h f).bind (.ok _)
  | succ fuel ih =>
    rw [Words.settle, Layout.settle]
    refine (h f).bind ?_
    cases change? f with
    | none => exact .ok _
    | some step => exact (ih step.2).bind (.ok _)

theorem exact_alignToByte (f : FieldForest) :
    Exact (Words.alignToByte f) (Layout.alignToByte f) := by
  refine (exact_sum f).bind ?_
  simp only [toNat_ofNat_mod_eight]
  rw [Layout.alignToByte]
  by_cases haligned : f.bits % 8 = 0
  · rw [dif_pos haligned, dif_pos haligned]
    exact .ok _
  · rw [dif_neg haligned, dif_neg haligned]
    exact (Exact.add_ofNat _ _).bind (.ok _)

theorem exact_layout (f : FieldForest) : Exact (Words.layout f) (ReportDescriptor.layout f) := by
  refine (exact_sum f).bind ((exact_settle exact_relocate? _ f).bind ?_)
  refine (exact_alignToByte _).bind ((exact_settle exact_merge? _ _).bind ?_)
  exact (exact_sum _).bind (.ok _)

theorem exact_build (kind : ReportKind) (id : UInt8) (children : FieldForest) :
    Exact (Words.build kind id children) (Report.build kind id children) := by
  rw [Words.build, Report.build]
  split
  · exact .ok _
  · split
    · exact .ok _
    · split
      · exact .ok _
      · exact (exact_layout children).bind (.ok _)

theorem bits_lt_of_layout {f : FieldForest} {out : List LogRecord × FieldForest}
    (h : Words.layout f = .ok out) : (ReportDescriptor.layout f).2.bits < UInt32.size := by
  rw [← exact_layout f out h]
  simp only [Words.layout, bind_eq_ok_iff] at h
  -- The last step adds up the bits of what has been laid out.
  obtain ⟨before, -, moved, -, aligned, -, merged, -, after, hafter, hout⟩ := h
  obtain rfl := Except.ok.inj hout
  rw [← toNat_of_sum_bits hafter]
  exact after.toNat_lt

/-- A report is laid out in words just if its bits make a word, and then as it is otherwise. -/
theorem build_eq_ok_iff {kind : ReportKind} {id : UInt8} {children : FieldForest} {r : Report}
    (hr : (Report.build kind id children).result = .ok r) {x : Logged Report} :
    Words.build kind id children = .ok x ↔
      r.bits < UInt32.size ∧ Report.build kind id children = x := by
  obtain ⟨hid, hempty, hkinds, -, rfl⟩ := Report.build_eq_ok_iff.1 hr
  rw [← Report.any_mismatch_eq_false_iff] at hkinds
  constructor
  · intro h
    have hexact := (exact_build kind id children x h).symm
    rw [Words.build, if_neg hid, hempty, hkinds, if_neg Bool.false_ne_true,
      if_neg Bool.false_ne_true] at h
    obtain ⟨out, hout, -⟩ := bind_eq_ok_iff.1 h
    exact ⟨bits_lt_of_layout hout, hexact⟩
  · rintro ⟨hbits, rfl⟩
    exact build_eq_of_bits kind id hbits

end Words

end ReportDescriptor
