import ReportDescriptor.Forest.Basic

/-!
# Paths

A path leads from the roots of a forest to one of its leaves: at each level it counts the trees
to pass by. Replacing the leaf at a path by a list of leaves is the only edit there is; seen
through `leaves` it is the same edit of a list (`leaves_splice`), and path number `i` leads to
leaf number `i` (`leafAt?_of_leafPaths`).
-/

namespace ReportDescriptor

abbrev Path := List Nat

namespace Forest

variable {β α : Type}

/-- The paths of all leaves of a forest that is preceded by `i` trees. -/
def leafPathsFrom (i : Nat) : Forest β α → List Path
  | nil => []
  | leaf _ rest => [i] :: leafPathsFrom (i + 1) rest
  | node _ children rest =>
    (leafPathsFrom 0 children).map (i :: ·) ++ leafPathsFrom (i + 1) rest

/-- In the order of `leaves`. -/
def leafPaths (f : Forest β α) : List Path :=
  leafPathsFrom 0 f

def leafAt? : Forest β α → Path → Option α
  | leaf a _, [0] => some a
  | leaf _ rest, (i + 1) :: p => leafAt? rest (i :: p)
  | node _ children _, 0 :: p => leafAt? children p
  | node _ _ rest, (i + 1) :: p => leafAt? rest (i :: p)
  | _, _ => none

/-- Puts the given leaves in front of a forest. -/
def prepend (as : List α) (f : Forest β α) : Forest β α :=
  as.foldr leaf f

/-- Replaces the leaf at a path; a path that leads to no leaf changes nothing. -/
def spliceAt (g : α → List α) : Forest β α → Path → Forest β α
  | leaf a rest, [0] => prepend (g a) rest
  | leaf a rest, (i + 1) :: p => leaf a (spliceAt g rest (i :: p))
  | node b children rest, 0 :: p => node b (spliceAt g children p) rest
  | node b children rest, (i + 1) :: p => node b children (spliceAt g rest (i :: p))
  | f, _ => f

/-- Replaces leaf number `i`. -/
def splice (g : α → List α) (f : Forest β α) (i : Nat) : Forest β α :=
  match f.leafPaths[i]? with
  | some p => f.spliceAt g p
  | none => f

/-- What a list becomes when its member number `i` is replaced. -/
def spliceList (g : α → List α) : List α → Nat → List α
  | [], _ => []
  | a :: as, 0 => g a ++ as
  | a :: as, i + 1 => a :: spliceList g as i

@[simp] theorem leaves_prepend (as : List α) (f : Forest β α) :
    (prepend as f).leaves = as ++ f.leaves := by
  induction as with
  | nil => rfl
  | cons a as ih => exact congrArg (a :: ·) ih

@[simp] theorem length_leafPathsFrom (i : Nat) (f : Forest β α) :
    (f.leafPathsFrom i).length = f.leaves.length := by
  induction f generalizing i with
  | nil => rfl
  | leaf a rest ih => simp [leafPathsFrom, ih]
  | node b children rest ihc ihr => simp [leafPathsFrom, ihc, ihr]

/-- There are as many paths as leaves. -/
@[simp] theorem length_leafPaths (f : Forest β α) : f.leafPaths.length = f.leaves.length :=
  f.length_leafPathsFrom 0

/-- Passing by `k` more trees. -/
def shift (k : Nat) : Path → Path
  | [] => []
  | i :: p => (i + k) :: p

theorem leafPathsFrom_eq (k : Nat) (f : Forest β α) :
    f.leafPathsFrom k = f.leafPaths.map (shift k) := by
  suffices h : ∀ j k, f.leafPathsFrom (j + k) = (f.leafPathsFrom j).map (shift k) by
    have h0 := h 0 k
    rwa [Nat.zero_add] at h0
  induction f with
  | nil => intro j k; rfl
  | leaf a rest ih =>
    intro j k
    rw [leafPathsFrom, leafPathsFrom, List.map_cons, Nat.add_right_comm, ih]
    rfl
  | node b children rest _ ih =>
    intro j k
    rw [leafPathsFrom, leafPathsFrom, List.map_append, Nat.add_right_comm, ih, List.map_map]
    rfl

theorem ne_nil_of_mem_leafPathsFrom {k : Nat} {f : Forest β α} {p : Path}
    (h : p ∈ f.leafPathsFrom k) : p ≠ [] := by
  induction f generalizing k with
  | nil => cases h
  | leaf a rest ih =>
    rcases List.mem_cons.1 h with rfl | h
    · exact List.cons_ne_nil _ _
    · exact ih h
  | node b children rest _ ih =>
    rcases List.mem_append.1 h with h | h
    · obtain ⟨q, _, rfl⟩ := List.mem_map.1 h
      exact List.cons_ne_nil _ _
    · exact ih h

theorem leafPaths_leaf (a : α) (rest : Forest β α) :
    (leaf a rest).leafPaths = [0] :: rest.leafPaths.map (shift 1) := by
  rw [leafPaths, leafPathsFrom, leafPathsFrom_eq]

theorem leafPaths_node (b : β) (children rest : Forest β α) :
    (node b children rest).leafPaths =
      children.leafPaths.map (0 :: ·) ++ rest.leafPaths.map (shift 1) := by
  rw [leafPaths, leafPathsFrom, leafPathsFrom_eq 1]
  rfl

theorem spliceList_append_left (g : α → List α) {as : List α} (bs : List α) {i : Nat}
    (h : i < as.length) : spliceList g (as ++ bs) i = spliceList g as i ++ bs := by
  induction as generalizing i with
  | nil => simp at h
  | cons a as ih =>
    cases i with
    | zero => simp [spliceList]
    | succ i =>
      simp only [List.length_cons, Nat.add_lt_add_iff_right] at h
      simp [spliceList, ih h]

theorem spliceList_append_right (g : α → List α) (as bs : List α) (i : Nat) :
    spliceList g (as ++ bs) (as.length + i) = as ++ spliceList g bs i := by
  induction as with
  | nil => simp
  | cons a as ih =>
    rw [List.length_cons, Nat.add_right_comm, List.cons_append, spliceList, ih, List.cons_append]

theorem leaves_spliceAt (g : α → List α) {f : Forest β α} {i : Nat} {p : Path}
    (h : f.leafPaths[i]? = some p) : (f.spliceAt g p).leaves = spliceList g f.leaves i := by
  induction f generalizing i p with
  | nil => simp [leafPaths, leafPathsFrom] at h
  | leaf a rest ih =>
    rw [leafPaths_leaf] at h
    cases i with
    | zero =>
      obtain rfl := Option.some.inj h
      rw [spliceAt, leaves_prepend]
      rfl
    | succ i =>
      rw [List.getElem?_cons_succ, List.getElem?_map, Option.map_eq_some_iff] at h
      obtain ⟨q, hq, rfl⟩ := h
      cases q with
      | nil => exact absurd rfl (ne_nil_of_mem_leafPathsFrom (List.mem_of_getElem? hq))
      | cons j q =>
        rw [shift, spliceAt, leaves_leaf, ih hq, leaves_leaf, spliceList]
  | node b children rest ihc ihr =>
    rw [leafPaths_node] at h
    by_cases hi : i < children.leaves.length
    · rw [List.getElem?_append_left (by simpa using hi), List.getElem?_map,
        Option.map_eq_some_iff] at h
      obtain ⟨q, hq, rfl⟩ := h
      rw [spliceAt, leaves_node, ihc hq, leaves_node, spliceList_append_left g _ hi]
    · obtain ⟨k, rfl⟩ := Nat.exists_eq_add_of_le (Nat.le_of_not_lt hi)
      rw [List.getElem?_append_right (by simp)] at h
      simp only [List.length_map, length_leafPaths, Nat.add_sub_cancel_left, List.getElem?_map,
        Option.map_eq_some_iff] at h
      obtain ⟨q, hq, rfl⟩ := h
      cases q with
      | nil => exact absurd rfl (ne_nil_of_mem_leafPathsFrom (List.mem_of_getElem? hq))
      | cons j q =>
        rw [shift, spliceAt, leaves_node, ihr hq, leaves_node, spliceList_append_right]

theorem leafAt?_of_leafPaths {f : Forest β α} {i : Nat} {p : Path}
    (h : f.leafPaths[i]? = some p) : f.leafAt? p = f.leaves[i]? := by
  induction f generalizing i p with
  | nil => simp [leafPaths, leafPathsFrom] at h
  | leaf a rest ih =>
    rw [leafPaths_leaf] at h
    cases i with
    | zero =>
      obtain rfl := Option.some.inj h
      rfl
    | succ i =>
      rw [List.getElem?_cons_succ, List.getElem?_map, Option.map_eq_some_iff] at h
      obtain ⟨q, hq, rfl⟩ := h
      cases q with
      | nil => exact absurd rfl (ne_nil_of_mem_leafPathsFrom (List.mem_of_getElem? hq))
      | cons j q => rw [shift, leafAt?, ih hq, leaves_leaf, List.getElem?_cons_succ]
  | node b children rest ihc ihr =>
    rw [leafPaths_node] at h
    by_cases hi : i < children.leaves.length
    · rw [List.getElem?_append_left (by simpa using hi), List.getElem?_map,
        Option.map_eq_some_iff] at h
      obtain ⟨q, hq, rfl⟩ := h
      rw [leafAt?, ihc hq, leaves_node, List.getElem?_append_left hi]
    · obtain ⟨k, rfl⟩ := Nat.exists_eq_add_of_le (Nat.le_of_not_lt hi)
      rw [List.getElem?_append_right (by simp)] at h
      simp only [List.length_map, length_leafPaths, Nat.add_sub_cancel_left, List.getElem?_map,
        Option.map_eq_some_iff] at h
      obtain ⟨q, hq, rfl⟩ := h
      cases q with
      | nil => exact absurd rfl (ne_nil_of_mem_leafPathsFrom (List.mem_of_getElem? hq))
      | cons j q =>
        rw [shift, leafAt?, ihr hq, leaves_node, List.getElem?_append_right (by simp),
          Nat.add_sub_cancel_left]

theorem leaves_splice (g : α → List α) {f : Forest β α} {i : Nat} (h : i < f.leaves.length) :
    (f.splice g i).leaves = spliceList g f.leaves i := by
  have hp : i < f.leafPaths.length := by rwa [length_leafPaths]
  have hget := List.getElem?_eq_getElem hp
  rw [splice, hget]
  exact leaves_spliceAt g hget

end Forest

end ReportDescriptor
