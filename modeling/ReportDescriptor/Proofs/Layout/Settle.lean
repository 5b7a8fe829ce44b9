import ReportDescriptor.Layout.Basic

/-!
# Repeated changes

Two passes of the layout repeat a change until there is none left to make. `settle` gives up after
so many changes; `Settles` is the repetition itself, which has no bound. Where a change lowers a
measure, or leads to a forest that is known to be settled, the two are the same.
-/

namespace ReportDescriptor

namespace Layout

variable {change? : FieldForest → Option (List LogRecord × FieldForest)} {f g : FieldForest}

/-- After exactly `n` changes none is left to make. -/
inductive Settles (change? : FieldForest → Option (List LogRecord × FieldForest)) :
    Nat → FieldForest → List LogRecord × FieldForest → Prop
  | rest {f : FieldForest} (h : change? f = none) : Settles change? 0 f ([], f)
  | step {n : Nat} {f g : FieldForest} {records : List LogRecord}
      {later : List LogRecord × FieldForest} (h : change? f = some (records, g))
      (hlater : Settles change? n g later) :
      Settles change? (n + 1) f (records ++ later.1, later.2)

theorem settles_settle {fuel : Nat} (h : change? (settle change? fuel f).2 = none) :
    ∃ n ≤ fuel, Settles change? n f (settle change? fuel f) := by
  induction fuel generalizing f with
  | zero => exact ⟨0, Nat.le_refl 0, .rest h⟩
  | succ fuel ih =>
    rw [settle] at h ⊢
    cases hchange : change? f with
    | none => exact ⟨0, Nat.zero_le _, .rest hchange⟩
    | some step =>
      rw [hchange] at h
      obtain ⟨n, hn, hsettles⟩ := ih h
      exact ⟨n + 1, Nat.succ_le_succ hn, .step hchange hsettles⟩

/-- What holds of every change, and of one change after another, holds of repeating the change. -/
theorem settle_of_trans {R : FieldForest → List LogRecord × FieldForest → Prop}
    (hrefl : ∀ f, R f ([], f))
    (htrans : ∀ f p q, R f p → R p.2 q → R f (p.1 ++ q.1, q.2))
    (hstep : ∀ f out, change? f = some out → R f out) (fuel : Nat) (f : FieldForest) :
    R f (settle change? fuel f) := by
  induction fuel generalizing f with
  | zero => exact hrefl f
  | succ fuel ih =>
    rw [settle]
    cases hchange : change? f with
    | none => exact hrefl f
    | some out => exact htrans f out _ (hstep f out hchange) (ih out.2)

theorem forall_mem_settle {P : LogRecord → Prop}
    (hstep : ∀ f out, change? f = some out → ∀ r ∈ out.1, P r) (fuel : Nat) (f : FieldForest) :
    ∀ r ∈ (settle change? fuel f).1, P r :=
  settle_of_trans (R := fun _ out => ∀ r ∈ out.1, P r) (fun _ => List.forall_mem_nil _)
    (fun _ _ _ hfirst hlater => List.forall_mem_append.2 ⟨hfirst, hlater⟩) hstep fuel f

/-- What every change keeps, repeating the change keeps. -/
theorem settle_induction {P : FieldForest → Prop}
    (hstep : ∀ f records g, P f → change? f = some (records, g) → P g)
    (fuel : Nat) {f : FieldForest} (hf : P f) : P (settle change? fuel f).2 :=
  settle_of_trans (fun _ hf => hf) (fun _ _ _ hfirst hlater hf => hlater (hfirst hf))
    (fun f out hchange hf => hstep f out.1 out.2 hf hchange) fuel f hf

theorem settle_related {R : FieldForest → FieldForest → Prop}
    (hstep : ∀ f g, R f g → Option.Rel (fun p q => R p.2 q.2) (change? f) (change? g)) (fuel : Nat)
    (h : R f g) : R (settle change? fuel f).2 (settle change? fuel g).2 := by
  induction fuel generalizing f g with
  | zero => exact h
  | succ fuel ih =>
    rw [settle, settle]
    have hrel := hstep f g h
    generalize change? f = p at hrel
    generalize change? g = q at hrel
    cases hrel with
    | none => exact h
    | some hrel => exact ih hrel

theorem settle_of_eq_none (h : change? f = none) (fuel : Nat) :
    (settle change? fuel f).2 = f := by
  cases fuel with
  | zero => rfl
  | succ fuel => rw [settle, h]

/-- As often as a measure allows, a change that lowers it is repeated to the end. -/
theorem change?_settle_eq_none {measure : FieldForest → Nat}
    (hlower : ∀ f records g, change? f = some (records, g) → measure g < measure f) {fuel : Nat}
    {f : FieldForest} (hfuel : measure f ≤ fuel) : change? (settle change? fuel f).2 = none := by
  induction fuel generalizing f with
  | zero =>
    cases hchange : change? f with
    | none => rw [settle, hchange]
    | some step =>
      have hlt := hlower f step.1 step.2 hchange
      omega
  | succ fuel ih =>
    rw [settle]
    cases hchange : change? f with
    | none => exact hchange
    | some step =>
      have hlt := hlower f step.1 step.2 hchange
      exact ih (by omega)

end Layout

end ReportDescriptor
