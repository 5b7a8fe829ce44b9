/-!
# Totals

The sum of a measure over a list.
-/

namespace ReportDescriptor

variable {α : Type}

def total (f : α → Nat) (as : List α) : Nat :=
  as.foldr (fun a n => f a + n) 0

@[simp] theorem total_nil (f : α → Nat) : total f [] = 0 := rfl

@[simp] theorem total_cons (f : α → Nat) (a : α) (as : List α) :
    total f (a :: as) = f a + total f as := rfl

@[simp] theorem total_append (f : α → Nat) (as bs : List α) :
    total f (as ++ bs) = total f as + total f bs := by
  induction as with
  | nil => simp
  | cons a as ih =>
    rw [List.cons_append, total_cons, total_cons, ih]
    omega

theorem total_replicate (f : α → Nat) (n : Nat) (a : α) :
    total f (List.replicate n a) = n * f a := by
  induction n with
  | zero => rw [List.replicate_zero, total_nil, Nat.zero_mul]
  | succ n ih => rw [List.replicate_succ, total_cons, ih, Nat.succ_mul, Nat.add_comm]

theorem le_total_of_mem {f : α → Nat} {a : α} {as : List α} (h : a ∈ as) : f a ≤ total f as := by
  induction as with
  | nil => cases h
  | cons b as ih =>
    rw [total_cons]
    rcases List.mem_cons.1 h with rfl | h
    · exact Nat.le_add_right _ _
    · exact Nat.le_add_left_of_le (ih h)

end ReportDescriptor
