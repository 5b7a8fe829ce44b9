import ReportDescriptor.Item.Basic

/-!
# Elision

A global item that states what is in force already can be left out without a loss. A push item puts
all that is in force aside and a pop item brings it back, so these two say something whenever they
stand.
-/

namespace ReportDescriptor

/-- The global values in force, at most one for each kind. -/
structure GlobalTable where
  entries : List (ItemKind × ItemValue) := []
deriving DecidableEq

namespace GlobalTable

def get? (t : GlobalTable) (k : ItemKind) : Option ItemValue :=
  t.entries.lookup k

def set (t : GlobalTable) (k : ItemKind) (v : ItemValue) : GlobalTable :=
  ⟨(k, v) :: t.entries.filter (·.1 ≠ k)⟩

@[simp] theorem get?_empty (k : ItemKind) : (GlobalTable.mk []).get? k = none := rfl

theorem lookup_filter_ne {k k' : ItemKind} (h : k' ≠ k) (es : List (ItemKind × ItemValue)) :
    (es.filter (·.1 ≠ k)).lookup k' = es.lookup k' := by
  induction es with
  | nil => rfl
  | cons e es ih =>
    obtain ⟨k₂, v₂⟩ := e
    by_cases hk : k₂ = k
    · have hne : (k' == k₂) = false := beq_eq_false_iff_ne.2 (hk ▸ h)
      rw [List.filter_cons_of_neg (by simp [hk]), ih, List.lookup_cons, hne]
    · rw [List.filter_cons_of_pos (by simp [hk]), List.lookup_cons, List.lookup_cons, ih]

theorem get?_set (t : GlobalTable) (k : ItemKind) (v : ItemValue) (k' : ItemKind) :
    (t.set k v).get? k' = if k' = k then some v else t.get? k' := by
  by_cases h : k' = k
  · simp [get?, set, h]
  · have hne : (k' == k) = false := beq_eq_false_iff_ne.2 h
    rw [get?, set, List.lookup_cons, hne, if_neg h]
    exact lookup_filter_ne h t.entries

end GlobalTable

/-- The values in force, and those put aside, the last ones first. -/
structure GlobalState where
  current : GlobalTable := {}
  saved : List GlobalTable := []
deriving DecidableEq

namespace GlobalState

/-- The state after an item; only global items change it. Where nothing has been put aside, a pop
leaves all as it is. -/
def after (s : GlobalState) (i : ShortItem) : GlobalState :=
  match i.kind with
  | .push => { s with saved := s.current :: s.saved }
  | .pop =>
    match s.saved with
    | [] => s
    | t :: ts => ⟨t, ts⟩
  | k => if k.category = .globalItem then { s with current := s.current.set k i.value } else s

def isRedundant (s : GlobalState) (i : ShortItem) : Bool :=
  match i.kind with
  | .push | .pop => false
  | k => k.category = .globalItem && s.current.get? k = some i.value

def dropRedundant (s : GlobalState) : List ShortItem → List ShortItem
  | [] => []
  | i :: is =>
    if s.isRedundant i then dropRedundant s is else i :: dropRedundant (s.after i) is

variable {s : GlobalState} {i : ShortItem}

theorem isRedundant_iff : s.isRedundant i = true ↔
    i.kind.category = .globalItem ∧ i.kind ≠ .push ∧ i.kind ≠ .pop ∧
      s.current.get? i.kind = some i.value := by
  rw [isRedundant]
  split
  case h_1 hpush => simp [hpush]
  case h_2 hpop => simp [hpop]
  case h_3 hpush hpop =>
    simp [show i.kind ≠ .push from hpush, show i.kind ≠ .pop from hpop]

theorem after_of_ne (hpush : i.kind ≠ .push) (hpop : i.kind ≠ .pop) :
    s.after i = if i.kind.category = .globalItem then
      { s with current := s.current.set i.kind i.value } else s := by
  rw [after]
  split
  case h_1 h => exact absurd h hpush
  case h_2 h => exact absurd h hpop
  case h_3 => rfl

theorem after_of_ne_globalItem (h : i.kind.category ≠ .globalItem) : s.after i = s := by
  have hpush : i.kind ≠ .push := fun hkind => h (by rw [hkind]; rfl)
  have hpop : i.kind ≠ .pop := fun hkind => h (by rw [hkind]; rfl)
  rw [after_of_ne hpush hpop, if_neg h]

theorem isRedundant_of_ne_globalItem (h : i.kind.category ≠ .globalItem) :
    s.isRedundant i = false :=
  Bool.eq_false_iff.2 fun hred => h (isRedundant_iff.1 hred).1

end GlobalState

end ReportDescriptor
