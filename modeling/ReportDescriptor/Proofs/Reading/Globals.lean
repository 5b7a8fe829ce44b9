import ReportDescriptor.Emission.Elision

/-!
# Global items as a reader sees them

A reader keeps the last value of each kind of global item, and what a push has put aside for the
next pop. The tables that guide elision are one way of keeping them, so an item is redundant for
the one exactly when it is for the other. Where nothing is put aside the last values are all there
is to keep.
-/

namespace ReportDescriptor

/-- The last value of each kind of global item, if there has been one. -/
abbrev Globals := ItemKind → Option ItemValue

namespace Globals

def empty : Globals := fun _ => none

def after (g : Globals) (i : ShortItem) : Globals :=
  if i.kind.category = .globalItem then fun k => if k = i.kind then some i.value else g k else g

def afterAll (g : Globals) (is : List ShortItem) : Globals :=
  is.foldl after g

variable {g : Globals} {i : ShortItem}

theorem after_of_ne_globalItem (g : Globals) (h : i.kind.category ≠ .globalItem) :
    g.after i = g :=
  if_neg h

theorem after_of_globalItem (h : i.kind.category = .globalItem) (k : ItemKind) :
    g.after i k = if k = i.kind then some i.value else g k := by
  rw [after, if_pos h]

/-- Stating again what is in force changes nothing. -/
theorem after_of_eq_some (h : g i.kind = some i.value) : g.after i = g := by
  by_cases hi : i.kind.category = .globalItem
  · funext k
    rw [after_of_globalItem hi]
    by_cases hk : k = i.kind
    · rw [if_pos hk, hk, h]
    · rw [if_neg hk]
  · exact after_of_ne_globalItem g hi

@[simp] theorem afterAll_nil (g : Globals) : g.afterAll [] = g := rfl

@[simp] theorem afterAll_cons (g : Globals) (i : ShortItem) (is : List ShortItem) :
    g.afterAll (i :: is) = (g.after i).afterAll is := rfl

@[simp] theorem afterAll_append (g : Globals) (is js : List ShortItem) :
    g.afterAll (is ++ js) = (g.afterAll is).afterAll js :=
  List.foldl_append

/-- Items of other kinds leave the value of a kind in force. -/
theorem afterAll_apply_of_forall_ne {is : List ShortItem} {k : ItemKind}
    (h : ∀ i ∈ is, i.kind ≠ k) : g.afterAll is k = g k := by
  induction is generalizing g with
  | nil => rfl
  | cons i is ih =>
    rw [afterAll_cons, ih fun j hj => h j (List.mem_cons_of_mem i hj)]
    by_cases hi : i.kind.category = .globalItem
    · rw [after_of_globalItem hi, if_neg (h i List.mem_cons_self).symm]
    · rw [after_of_ne_globalItem g hi]

end Globals

/-- The last values, and those put aside, the last ones first. -/
structure GlobalStack where
  current : Globals
  saved : List Globals

namespace GlobalStack

def empty : GlobalStack := ⟨.empty, []⟩

def after (s : GlobalStack) (i : ShortItem) : GlobalStack :=
  match i.kind with
  | .push => { s with saved := s.current :: s.saved }
  | .pop =>
    match s.saved with
    | [] => s
    | g :: gs => ⟨g, gs⟩
  | _ => { s with current := s.current.after i }

def afterAll (s : GlobalStack) (is : List ShortItem) : GlobalStack :=
  is.foldl after s

/-- An item that states again what is in force. -/
structure Restates (s : GlobalStack) (i : ShortItem) : Prop where
  globalItem : i.kind.category = .globalItem
  ne_push : i.kind ≠ .push
  ne_pop : i.kind ≠ .pop
  inForce : s.current i.kind = some i.value

variable {s : GlobalStack} {i : ShortItem}

@[simp] theorem afterAll_cons (s : GlobalStack) (i : ShortItem) (is : List ShortItem) :
    s.afterAll (i :: is) = (s.after i).afterAll is := rfl

theorem after_of_ne (hpush : i.kind ≠ .push) (hpop : i.kind ≠ .pop) :
    s.after i = { s with current := s.current.after i } := by
  rw [after]
  split
  case h_1 h => exact absurd h hpush
  case h_2 h => exact absurd h hpop
  case h_3 => rfl

theorem Restates.after_eq (h : s.Restates i) : s.after i = s := by
  rw [after_of_ne h.ne_push h.ne_pop, Globals.after_of_eq_some h.inForce]

end GlobalStack

/-- No item puts anything aside or brings it back. -/
def Stackless (is : List ShortItem) : Prop :=
  ∀ i ∈ is, i.kind ≠ .push ∧ i.kind ≠ .pop

theorem Stackless.current_afterAll {is : List ShortItem} (h : Stackless is) (s : GlobalStack) :
    (s.afterAll is).current = s.current.afterAll is := by
  induction is generalizing s with
  | nil => rfl
  | cons i is ih =>
    obtain ⟨hi, his⟩ := List.forall_mem_cons.1 h
    rw [GlobalStack.afterAll_cons, ih his, GlobalStack.after_of_ne hi.1 hi.2,
      Globals.afterAll_cons]

namespace GlobalState

variable {s : GlobalState} {i : ShortItem}

/-- What the tables hold. -/
def values (s : GlobalState) : GlobalStack :=
  ⟨s.current.get?, s.saved.map GlobalTable.get?⟩

theorem get?_after (hpush : i.kind ≠ .push) (hpop : i.kind ≠ .pop) :
    (s.after i).current.get? = Globals.after s.current.get? i := by
  by_cases h : i.kind.category = .globalItem
  · funext k
    rw [after_of_ne hpush hpop, if_pos h, GlobalTable.get?_set, Globals.after_of_globalItem h]
  · rw [after_of_ne_globalItem h, Globals.after_of_ne_globalItem _ h]

theorem saved_after (hpush : i.kind ≠ .push) (hpop : i.kind ≠ .pop) :
    (s.after i).saved = s.saved := by
  rw [after_of_ne hpush hpop]
  split <;> rfl

theorem values_after (s : GlobalState) (i : ShortItem) :
    (s.after i).values = s.values.after i := by
  by_cases hpush : i.kind = .push
  · simp only [after, GlobalStack.after, hpush]
    rfl
  by_cases hpop : i.kind = .pop
  · cases hsaved : s.saved <;>
      simp only [after, GlobalStack.after, hpop, values, hsaved, List.map_nil, List.map_cons]
  · rw [GlobalStack.after_of_ne hpush hpop, values, get?_after hpush hpop,
      saved_after hpush hpop]
    rfl

theorem isRedundant_iff_restates : s.isRedundant i = true ↔ s.values.Restates i := by
  rw [isRedundant_iff]
  exact ⟨fun ⟨hglobal, hpush, hpop, hget⟩ => ⟨hglobal, hpush, hpop, hget⟩,
    fun h => ⟨h.globalItem, h.ne_push, h.ne_pop, h.inForce⟩⟩

theorem sublist_dropRedundant (s : GlobalState) (is : List ShortItem) :
    (s.dropRedundant is).Sublist is := by
  fun_induction dropRedundant s is with
  | case1 s => exact .slnil
  | case2 s i is hred ih => exact ih.cons i
  | case3 s i is hred ih => exact ih.cons_cons i

end GlobalState

theorem Stackless.sublist {is js : List ShortItem} (h : Stackless is) (hsub : js.Sublist is) :
    Stackless js :=
  fun i hi => h i (hsub.subset hi)

end ReportDescriptor
