import ReportDescriptor.Descriptor.Basic
import ReportDescriptor.Proofs.Forest.Filter

/-!
# Blocks

Neighbouring variables that differ in nothing but their usages can share a main item. So the fields
of a descriptor fall into blocks: variables that share one, and fields that stand alone. There is a
block of several fields exactly where two neighbours can share.
-/

namespace ReportDescriptor

namespace Variable

variable {u v w : Variable}

theorem combinableWith_iff :
    v.combinableWith w = true ↔ v.count = .one ∧ w.count = .one ∧ v.usage.page = w.usage.page ∧
      v.field.size.adjusted = w.field.size.adjusted ∧
      { v.field with size := w.field.size } = w.field := by
  simp only [combinableWith, Bool.and_eq_true, decide_eq_true_eq, and_assoc]

theorem combinableWith_symm (h : v.combinableWith w = true) : w.combinableWith v = true := by
  rw [combinableWith_iff] at h ⊢
  obtain ⟨hv, hw, hpage, hadjusted, hfield⟩ := h
  refine ⟨hw, hv, hpage.symm, hadjusted.symm, ?_⟩
  rw [← hfield]

theorem combinableWith_trans (huv : u.combinableWith v = true) (hvw : v.combinableWith w = true) :
    u.combinableWith w = true := by
  rw [combinableWith_iff] at huv hvw ⊢
  obtain ⟨hu, -, hpage, hadjusted, hfield⟩ := huv
  obtain ⟨-, hw, hpage', hadjusted', hfield'⟩ := hvw
  refine ⟨hu, hw, hpage.trans hpage', hadjusted.trans hadjusted', ?_⟩
  calc { u.field with size := w.field.size }
      = { { u.field with size := v.field.size } with size := w.field.size } := rfl
    _ = { v.field with size := w.field.size } := by rw [hfield]
    _ = w.field := hfield'

end Variable

namespace Forest

variable {β α : Type} {a b x y : α} {f : Forest β α}

/-- The leaves `a` and `b` stand next to each other among the outermost trees. -/
def Adjacent (a b : α) (f : Forest β α) : Prop :=
  ∃ pre post, f = pre ++ leaf a (leaf b post)

/-- The trees that are siblings: the outermost ones, and the children of each inner node. -/
def siblings (f : Forest β α) : List (Forest β α) :=
  f :: f.nodes.map Prod.snd

theorem not_adjacent_nil : ¬(nil : Forest β α).Adjacent a b := by
  rintro ⟨pre, post, h⟩
  cases pre <;> cases h

theorem adjacent_leaf : (leaf x f).Adjacent a b ↔
    (x = a ∧ ∃ post, f = leaf b post) ∨ f.Adjacent a b := by
  constructor
  · rintro ⟨pre, post, h⟩
    cases pre with
    | nil =>
      cases h
      exact .inl ⟨rfl, post, rfl⟩
    | leaf y pre =>
      cases h
      exact .inr ⟨pre, post, rfl⟩
    | node c children pre => cases h
  · rintro (⟨rfl, post, rfl⟩ | ⟨pre, post, rfl⟩)
    · exact ⟨nil, post, rfl⟩
    · exact ⟨leaf x pre, post, rfl⟩

theorem adjacent_node {c : β} {children : Forest β α} :
    (node c children f).Adjacent a b ↔ f.Adjacent a b := by
  constructor
  · rintro ⟨pre, post, h⟩
    cases pre with
    | nil => cases h
    | leaf y pre => cases h
    | node c children pre =>
      cases h
      exact ⟨pre, post, rfl⟩
  · rintro ⟨pre, post, rfl⟩
    exact ⟨node c children pre, post, rfl⟩

end Forest

/-- Variables that can share a main item. -/
def Leaf.joins : Leaf → Leaf → Bool
  | single v, single w => v.combinableWith w
  | _, _ => false

theorem Leaf.joins_iff {l m : Leaf} :
    l.joins m = true ↔ ∃ v w, l = single v ∧ m = single w ∧ v.combinableWith w = true := by
  constructor
  · intro h
    cases l with
    | single v =>
      cases m with
      | single w => exact ⟨v, w, rfl, rfl, h⟩
      | range w => cases h
      | array s => cases h
      | padding w => cases h
    | range v => cases h
    | array s => cases h
    | padding w => cases h
  · rintro ⟨v, w, rfl, rfl, h⟩
    exact h

namespace FieldForest

/-- The first tree, if that is a leaf. -/
def first? : FieldForest → Option Leaf
  | .leaf l _ => some l
  | _ => none

theorem eq_leaf_of_first? {f : FieldForest} {l : Leaf} (h : first? f = some l) :
    ∃ rest, f = .leaf l rest := by
  cases f with
  | nil => cases h
  | leaf m rest => exact ⟨rest, congrArg (Forest.leaf · rest) (Option.some.inj h)⟩
  | node c children rest => cases h

/-- The leaves in depth-first order. Neighbours among the same siblings that can share a main item
stand together. -/
def blocks : FieldForest → List (List Leaf)
  | .nil => []
  | .leaf l rest =>
    if (first? rest).any l.joins then (blocks rest).modifyHead (l :: ·) else [l] :: blocks rest
  | .node _ children rest => blocks children ++ blocks rest

theorem blocks_leaf_of_forall {l : Leaf} {f : FieldForest}
    (h : ∀ m ∈ first? f, l.joins m = false) : blocks (.leaf l f) = [l] :: blocks f := by
  have hany : (first? f).any l.joins = false := by
    cases hf : first? f with
    | none => rfl
    | some m => exact h m hf
  rw [blocks, hany, if_neg Bool.false_ne_true]

/-- Variables that can share, before whatever does not join them. -/
theorem blocks_prepend {v : Variable} {vs : List Variable}
    (hshare : (v :: vs).Pairwise fun u w => u.combinableWith w = true) {f : FieldForest}
    (hend : ∀ m ∈ first? f, ∀ w ∈ v :: vs, (Leaf.single w).joins m = false) :
    blocks (.prepend ((v :: vs).map .single) f) = (v :: vs).map .single :: blocks f := by
  induction vs generalizing v with
  | nil => exact blocks_leaf_of_forall fun m hm => hend m hm v List.mem_cons_self
  | cons w vs ih =>
    obtain ⟨hv, hshare⟩ := List.pairwise_cons.1 hshare
    have hrest := ih hshare fun m hm u hu => hend m hm u (List.mem_cons_of_mem v hu)
    have hjoins : (first? (.prepend ((w :: vs).map .single) f)).any (Leaf.single v).joins = true :=
      hv w List.mem_cons_self
    rw [List.map_cons, Forest.prepend_cons, blocks, hjoins, if_pos rfl, hrest,
      List.modifyHead_cons]

/-- Two neighbours among the outermost trees can share a main item. -/
def HasCombinable (f : FieldForest) : Prop :=
  ∃ v w, f.Adjacent (.single v) (.single w) ∧ v.combinableWith w = true

theorem hasCombinable_leaf {l : Leaf} {f : FieldForest} :
    HasCombinable (.leaf l f) ↔ (first? f).any l.joins = true ∨ HasCombinable f := by
  simp only [HasCombinable, Forest.adjacent_leaf]
  constructor
  · rintro ⟨v, w, ⟨rfl, post, rfl⟩ | hadjacent, hcombinable⟩
    · exact .inl hcombinable
    · exact .inr ⟨v, w, hadjacent, hcombinable⟩
  · rintro (hany | ⟨v, w, hadjacent, hcombinable⟩)
    · obtain ⟨m, hm, hjoins⟩ := (Option.any_eq_true ..).1 hany
      obtain ⟨v, w, rfl, rfl, hcombinable⟩ := Leaf.joins_iff.1 hjoins
      exact ⟨v, w, .inl ⟨rfl, eq_leaf_of_first? hm⟩, hcombinable⟩
    · exact ⟨v, w, .inr hadjacent, hcombinable⟩

theorem hasCombinable_node {c : Collection} {children f : FieldForest} :
    HasCombinable (.node c children f) ↔ HasCombinable f := by
  simp only [HasCombinable, Forest.adjacent_node]

theorem blocks_of_first? {f : FieldForest} {l : Leaf} (h : first? f = some l) :
    ∃ b bs, blocks f = (l :: b) :: bs := by
  induction f generalizing l with
  | nil => cases h
  | leaf m rest ih =>
    obtain rfl := Option.some.inj h
    rw [blocks]
    split
    case isTrue hany =>
      obtain ⟨n, hn, -⟩ := (Option.any_eq_true ..).1 hany
      obtain ⟨b, bs, hrest⟩ := ih hn
      exact ⟨n :: b, bs, congrArg _ hrest⟩
    case isFalse => exact ⟨[], blocks rest, rfl⟩
  | node c children rest => cases h

theorem flatten_blocks (f : FieldForest) : (blocks f).flatten = f.leaves := by
  induction f with
  | nil => rfl
  | leaf l rest ih =>
    rw [blocks, Forest.leaves_leaf, ← ih]
    split
    case isTrue hany =>
      obtain ⟨m, hm, -⟩ := (Option.any_eq_true ..).1 hany
      obtain ⟨b, bs, hrest⟩ := blocks_of_first? hm
      rw [hrest]
      rfl
    case isFalse => rfl
  | node c children rest ihc ihr =>
    rw [blocks, List.flatten_append, ihc, ihr, Forest.leaves_node]

/-- There is a block of several fields exactly where neighbours can share a main item. -/
theorem exists_two_le_length_iff (f : FieldForest) :
    (∃ b ∈ blocks f, 2 ≤ b.length) ↔ ∃ s ∈ f.siblings, HasCombinable s := by
  induction f with
  | nil => simp [blocks, Forest.siblings, Forest.nodes, HasCombinable, Forest.not_adjacent_nil]
  | leaf l rest ih =>
    rw [Forest.siblings, Forest.nodes, List.exists_mem_cons_iff, hasCombinable_leaf, or_assoc,
      ← List.exists_mem_cons_iff, ← Forest.siblings, ← ih, blocks]
    split
    case isTrue hany =>
      obtain ⟨m, hm, -⟩ := (Option.any_eq_true ..).1 hany
      obtain ⟨b, bs, hrest⟩ := blocks_of_first? hm
      rw [hrest, List.modifyHead_cons]
      exact iff_of_true ⟨_, List.mem_cons_self, Nat.le_add_left 2 b.length⟩ (.inl hany)
    case isFalse hany => simp [hany]
  | node c children rest ihc ihr =>
    simp only [Forest.siblings, Forest.nodes, List.exists_mem_cons_iff, hasCombinable_node,
      List.map_cons, List.map_append, blocks, List.mem_append, or_and_right, exists_or] at ihc ihr ⊢
    rw [ihc, ihr, or_left_comm, or_assoc]

end FieldForest

/-- All fields in the order they are written, with those together that can share a main item. -/
def Descriptor.blocks (d : Descriptor) : List (List Leaf) :=
  d.reports.flatMap fun r => FieldForest.blocks r.children

end ReportDescriptor
