import Mathlib.Data.List.SplitBy
import ReportDescriptor.Proofs.Emission.Attributes

/-!
# Maximal runs

With optimization the siblings are cut into blocks: variables that can all share a main item, and
whatever else there is one by one. No stretch of siblings that can share is cut in two. Each block
is written on its own, one after the other, and has one main item.
-/

namespace ReportDescriptor

/-- Everything a main item says about a variable, but for the usage id. -/
structure Variable.Agrees (v w : Variable) : Prop where
  page : v.usage.page = w.usage.page
  adjusted : v.field.size.adjusted = w.field.size.adjusted
  logicalMin : v.field.logical.min = w.field.logical.min
  logicalMax : v.field.logical.max = w.field.logical.max
  physicalMin : v.field.declaredPhysical.min = w.field.declaredPhysical.min
  physicalMax : v.field.declaredPhysical.max = w.field.declaredPhysical.max
  undefined : v.field.physical = none ↔ w.field.physical = none
  interpreted : v.field.interpretedPhysical = w.field.interpretedPhysical
  unit : v.field.unit = w.field.unit
  unitExponent : v.field.unitExponent = w.field.unitExponent
  report : v.field.report = w.field.report
  flags : v.field.flags = w.field.flags

namespace Variable

variable {v w : Variable}

theorem count_eq_one_iff : v.count = .one ↔ v.count.value = 1 := by
  constructor
  · intro h
    rw [h]
    rfl
  · intro h
    exact FieldCount.ext h

/-- Where both are defined, the physical extents are what is declared; where one is not, neither
is. -/
theorem Agrees.physical (h : v.Agrees w) : v.field.physical = w.field.physical := by
  have hmin := h.physicalMin
  have hmax := h.physicalMax
  rw [DataField.declaredPhysical, DataField.declaredPhysical] at hmin hmax
  cases hv : v.field.physical with
  | none => exact (h.undefined.1 hv).symm
  | some p =>
    cases hw : w.field.physical with
    | none =>
      rw [h.undefined.2 hw] at hv
      cases hv
    | some q =>
      rw [hv, hw] at hmin hmax
      exact congrArg some (Extent.ext hmin hmax)

theorem combinableWith_iff_agrees :
    v.combinableWith w = true ↔ v.count.value = 1 ∧ w.count.value = 1 ∧ v.Agrees w := by
  rw [combinableWith_iff, count_eq_one_iff, count_eq_one_iff]
  constructor
  · rintro ⟨hv, hw, hpage, hadjusted, hfield⟩
    exact ⟨hv, hw, hpage, hadjusted, by rw [← hfield], by rw [← hfield],
      by rw [← hfield]; rfl, by rw [← hfield]; rfl, by rw [← hfield], by rw [← hfield]; rfl,
      by rw [← hfield], by rw [← hfield], by rw [← hfield], by rw [← hfield]⟩
  · rintro ⟨hv, hw, h⟩
    have hlogical : v.field.logical = w.field.logical := Extent.ext h.logicalMin h.logicalMax
    refine ⟨hv, hw, h.page, h.adjusted, ?_⟩
    simp only [hlogical, h.physical, h.unit, h.unitExponent, h.flags, h.report]

end Variable

section Blocks

variable {α : Type} {joins : α → α → Bool} {blocks : List (List α)} {pre s post : List α}

/-- The stretch of the list that stands between `pre` and `post` lies in one of the blocks. -/
def LiesInOne (blocks : List (List α)) (pre s post : List α) : Prop :=
  ∃ bs xs ys bs', blocks = bs ++ (xs ++ s ++ ys) :: bs' ∧ pre = bs.flatten ++ xs ∧
    post = ys ++ bs'.flatten

theorem LiesInOne.cons (h : LiesInOne blocks pre s post) (b : List α) :
    LiesInOne (b :: blocks) (b ++ pre) s post := by
  obtain ⟨bs, xs, ys, bs', rfl, rfl, hpost⟩ := h
  exact ⟨b :: bs, xs, ys, bs', rfl, by rw [List.flatten_cons, List.append_assoc], hpost⟩

/-- The list is cut into blocks of which any two members join, and every stretch of the list with
that property lies in one of them. -/
structure MaximalBlocks (joins : α → α → Bool) (as : List α) (blocks : List (List α)) : Prop where
  flatten_eq : blocks.flatten = as
  nil_notMem : [] ∉ blocks
  pairwise : ∀ b ∈ blocks, b.Pairwise fun x y => joins x y = true
  whole : ∀ pre s post, as = pre ++ (s ++ post) → s ≠ [] →
    s.Pairwise (fun x y => joins x y = true) → LiesInOne blocks pre s post

namespace MaximalBlocks

variable {as b b' : List α} {blocks' : List (List α)}

theorem ne_nil (h : MaximalBlocks joins as (b :: blocks)) : b ≠ [] :=
  fun hb => h.nil_notMem (hb ▸ List.mem_cons_self)

theorem eq_nil (h : MaximalBlocks joins [] blocks) : blocks = [] := by
  cases blocks with
  | nil => rfl
  | cons b blocks => exact absurd (List.append_eq_nil_iff.1 h.flatten_eq).1 h.ne_nil

theorem tail (h : MaximalBlocks joins as (b :: blocks)) :
    MaximalBlocks joins blocks.flatten blocks := by
  refine ⟨rfl, fun hnil => h.nil_notMem (List.mem_cons_of_mem b hnil),
    fun b' hb' => h.pairwise b' (List.mem_cons_of_mem b hb'), ?_⟩
  intro pre s post hflatten hs hshare
  have has : as = b ++ pre ++ (s ++ post) := by
    rw [← h.flatten_eq, List.flatten_cons, hflatten, List.append_assoc]
  obtain ⟨bs, xs, ys, bs', hblocks, hpre, hpost⟩ := h.whole _ s post has hs hshare
  cases bs with
  | nil =>
    -- The first block ends before the stretch begins.
    have hlength := congrArg List.length (List.cons.inj hblocks).1
    have hbefore := congrArg List.length hpre
    have hpos := List.length_pos_iff.2 hs
    simp only [List.flatten_nil, List.nil_append, List.length_append] at hlength hbefore
    omega
  | cons c bs =>
    obtain ⟨rfl, hlater⟩ := List.cons.inj hblocks
    rw [List.flatten_cons, List.append_assoc, List.append_cancel_left_eq] at hpre
    exact ⟨bs, xs, ys, bs', hlater, hpre, hpost⟩

/-- A first block lies in the first block of any other way to cut the list. -/
theorem begins (h : MaximalBlocks joins as (b :: blocks))
    (h' : MaximalBlocks joins as (b' :: blocks')) : b <+: b' := by
  have has : as = [] ++ (b ++ blocks.flatten) := h.flatten_eq.symm
  obtain ⟨bs, xs, ys, bs', hblocks, hpre, -⟩ :=
    h'.whole [] b _ has h.ne_nil (h.pairwise b List.mem_cons_self)
  obtain ⟨hbs, rfl⟩ := List.append_eq_nil_iff.1 hpre.symm
  cases bs with
  | nil => exact ⟨ys, (List.cons.inj hblocks).1.symm⟩
  | cons c bs =>
    obtain ⟨rfl, -⟩ := List.cons.inj hblocks
    exact absurd (List.append_eq_nil_iff.1 hbs).1 h'.ne_nil

theorem unique (h : MaximalBlocks joins as blocks) (h' : MaximalBlocks joins as blocks') :
    blocks = blocks' := by
  induction blocks generalizing as blocks' with
  | nil =>
    obtain rfl : [] = as := h.flatten_eq
    exact h'.eq_nil.symm
  | cons b blocks ih =>
    cases blocks' with
    | nil =>
      obtain rfl : [] = as := h'.flatten_eq
      exact h.eq_nil
    | cons b' blocks' =>
      obtain rfl : b = b' := (h.begins h').eq_of_length_le (h'.begins h).length_le
      have hrest := h.flatten_eq.trans h'.flatten_eq.symm
      rw [List.flatten_cons, List.flatten_cons, List.append_cancel_left_eq] at hrest
      rw [ih h.tail (hrest ▸ h'.tail)]

end MaximalBlocks

end Blocks


namespace Element

/-- Variables that can share a main item. -/
def joins : Element → Element → Bool
  | leaf l, leaf m => l.joins m
  | _, _ => false

theorem joins_iff {e e' : Element} : e.joins e' = true ↔
    ∃ v w, e = leaf (.single v) ∧ e' = leaf (.single w) ∧ v.combinableWith w = true := by
  constructor
  · intro h
    cases e with
    | leaf l =>
      cases e' with
      | leaf m =>
        obtain ⟨v, w, rfl, rfl, hvw⟩ := Leaf.joins_iff.1 h
        exact ⟨v, w, rfl, rfl, hvw⟩
      | _ => cases h
    | _ => cases h
  · rintro ⟨v, w, rfl, rfl, hvw⟩
    exact hvw

end Element

namespace Emission

open FieldForest

/-- What one block of siblings is written as. -/
inductive BlockWritten (r : ReportKind) : List Element → List ShortItem → Prop
  | alone (l : Leaf) : BlockWritten r [.leaf l] (leafItems r l)
  | shared {v : Variable} {ws : List Variable} (hws : ws ≠ [])
      (hshare : (v :: ws).Pairwise fun u w => u.combinableWith w = true) :
      BlockWritten r ((v :: ws).map fun w => .leaf (.single w)) (sharedItems r v ws)
  | collection (c : Collection) (children : FieldForest) :
      BlockWritten r [.collection c children]
        (itemsOf (openCollection c.usage c.kind.type) ++
          itemsOf (siblingEvents true (some r) none children) ++ itemsOf closeCollection)

/-- The siblings are written block by block. -/
def WrittenInBlocks (r : ReportKind) (es : List Element) (is : List ShortItem) : Prop :=
  ∃ iss, List.Forall₂ (BlockWritten r) (es.splitBy Element.joins) iss ∧ is = iss.flatten

namespace WrittenInBlocks

variable {r : ReportKind} {es es' : List Element} {is is' : List ShortItem}

theorem nil : WrittenInBlocks r [] [] :=
  ⟨[], .nil, rfl⟩

theorem append (h : WrittenInBlocks r es is) (h' : WrittenInBlocks r es' is')
    (hapart : ∀ e ∈ es, ∀ e' ∈ es'.head?, e.joins e' = false) :
    WrittenInBlocks r (es ++ es') (is ++ is') := by
  obtain ⟨iss, hiss, rfl⟩ := h
  obtain ⟨iss', hiss', rfl⟩ := h'
  refine ⟨iss ++ iss', ?_, List.flatten_append.symm⟩
  rw [List.splitBy_append fun e he => hapart e (List.mem_of_getLast? he)]
  exact List.rel_append hiss hiss'

theorem of_block (hes : es ≠ []) (hshare : es.IsChain fun e e' => e.joins e' = true)
    (h : BlockWritten r es is) : WrittenInBlocks r es is := by
  refine ⟨[is], ?_, by rw [List.flatten_cons, List.flatten_nil, List.append_nil]⟩
  rw [List.splitBy_of_isChain hes hshare]
  exact .cons h .nil

theorem alone (l : Leaf) : WrittenInBlocks r [.leaf l] (leafItems r l) :=
  of_block (List.cons_ne_nil _ _) (.singleton _) (.alone l)

theorem collection (c : Collection) (children : FieldForest) :
    WrittenInBlocks r [.collection c children]
      (itemsOf (openCollection c.usage c.kind.type) ++
        itemsOf (siblingEvents true (some r) none children) ++ itemsOf closeCollection) :=
  of_block (List.cons_ne_nil _ _) (.singleton _) (.collection c children)

/-- The fields that have been met and not yet written are a block. -/
theorem pending {run : Option Run} (hrun : ∀ q ∈ run, q.IsUniform) :
    WrittenInBlocks r ((pending run).map .leaf) (itemsOf (run.elim [] (Run.events (some r)))) := by
  cases run with
  | none => exact nil
  | some q =>
    have hq := hrun q rfl
    by_cases hothers : q.others = []
    · obtain ⟨v, others⟩ := q
      obtain rfl : others = [] := hothers
      exact alone (.single v)
    · have hblock : BlockWritten r (q.members.map fun w => .leaf (.single w))
          (sharedItems r q.first q.others.reverse) :=
        .shared (fun h => hothers (List.reverse_eq_nil_iff.1 h)) hq.pairwise
      have hchain : (q.members.map fun w => Element.leaf (.single w)).IsChain
          fun e e' => e.joins e' = true :=
        (List.pairwise_map.2 hq.pairwise).isChain
      change WrittenInBlocks r ((q.members.map Leaf.single).map Element.leaf)
        (itemsOf (q.events (some r)))
      rw [List.map_map, itemsOf_run_eq_sharedItems r hothers]
      exact of_block (List.cons_ne_nil _ _) hchain hblock

end WrittenInBlocks

namespace BlockWritten

variable {r : ReportKind} {es : List Element} {is : List ShortItem}

/-- A block with several members consists of variables with one value each. -/
theorem count_eq_one (h : BlockWritten r es is) (htwo : 2 ≤ es.length) :
    ∀ e ∈ es, ∃ v, e = .leaf (.single v) ∧ v.count.value = 1 := by
  cases h with
  | alone l => exact absurd htwo (Nat.lt_irrefl 1)
  | @shared v ws hws hshare =>
    obtain ⟨hfirst, -⟩ := List.pairwise_cons.1 hshare
    obtain ⟨w, hw⟩ := List.exists_mem_of_ne_nil ws hws
    have hone : ∀ u ∈ v :: ws, u.count.value = 1 := by
      refine List.forall_mem_cons.2 ⟨?_, fun u hu => ?_⟩
      · exact (Variable.combinableWith_iff_agrees.1 (hfirst w hw)).1
      · exact (Variable.combinableWith_iff_agrees.1 (hfirst u hu)).2.1
    intro e he
    obtain ⟨u, hu, rfl⟩ := List.mem_map.1 he
    exact ⟨u, rfl, hone u hu⟩
  | collection c children => exact absurd htwo (Nat.lt_irrefl 1)

end BlockWritten

end Emission

end ReportDescriptor
