import ReportDescriptor.Proofs.Emission.Bytes

/-!
# Collections nest

Every collection that begins ends, within the one it began in. So a counter of the collections
that are open, which stops at zero when too many end, never has to stop. Each application takes
the counter away from zero and back, and has all its reports in between.
-/

namespace ReportDescriptor

namespace ItemKind

/-- Neither the beginning nor the end of a collection. -/
def isPlain (k : ItemKind) : Bool :=
  k ≠ .collection && k ≠ .endCollection

/-- Fields and the ids of reports only stand within collections. -/
def needsCollection : ItemKind → Bool
  | input | output | feature | reportId => true
  | _ => false

theorem isPlain_iff {k : ItemKind} : k.isPlain = true ↔ k ≠ .collection ∧ k ≠ .endCollection := by
  simp [isPlain]

theorem needsCollection_iff {k : ItemKind} :
    k.needsCollection = true ↔ k ∈ [input, output, feature, reportId] := by
  cases k <;> decide

end ItemKind

namespace ShortItem

/-- The collections that are open once an item has begun, if there were `depth` before it: the end
of a collection stands outside of it. -/
def depthAt (depth : Nat) (i : ShortItem) : Nat :=
  if i.kind = .endCollection then depth - 1 else depth

def depthPast (depth : Nat) (i : ShortItem) : Nat :=
  if i.kind = .collection then i.depthAt depth + 1 else i.depthAt depth

/-- The collections that are open after some items, counted as a listing counts them. -/
def depthAfter (depth : Nat) (is : List ShortItem) : Nat :=
  is.foldl depthPast depth

variable {depth : Nat} {i : ShortItem}

theorem depthPast_of_isPlain (h : i.kind.isPlain = true) : i.depthPast depth = depth := by
  rw [ItemKind.isPlain_iff] at h
  rw [depthPast, if_neg h.1, depthAt, if_neg h.2]

theorem depthPast_of_collection (h : i.kind = .collection) : i.depthPast depth = depth + 1 := by
  rw [depthPast, if_pos h, depthAt, h, if_neg (by decide)]

theorem depthPast_of_endCollection (h : i.kind = .endCollection) :
    i.depthPast depth = depth - 1 := by
  rw [depthPast, h, if_neg (by decide), depthAt, if_pos h]

@[simp] theorem depthAfter_nil (depth : Nat) : depthAfter depth [] = depth := rfl

@[simp] theorem depthAfter_cons (depth : Nat) (i : ShortItem) (is : List ShortItem) :
    depthAfter depth (i :: is) = depthAfter (i.depthPast depth) is := rfl

@[simp] theorem depthAfter_append (depth : Nat) (is js : List ShortItem) :
    depthAfter depth (is ++ js) = depthAfter (depthAfter depth is) js :=
  List.foldl_append

end ShortItem

open ShortItem

/-- Every collection among the items ends, and what begins within it ends within it. -/
inductive Nested : List ShortItem → Prop
  | nil : Nested []
  | plain {i : ShortItem} {is : List ShortItem} (hi : i.kind.isPlain = true) (h : Nested is) :
      Nested (i :: is)
  | group {c e : ShortItem} {inner rest : List ShortItem} (hc : c.kind = .collection)
      (hinner : Nested inner) (he : e.kind = .endCollection) (hrest : Nested rest) :
      Nested (c :: (inner ++ e :: rest))

/-- Where an item of two lists with another one between them stands. -/
theorem of_append_cons_eq {α : Type} {as bs pre post : List α} {a x : α}
    (h : as ++ a :: bs = pre ++ x :: post) :
    (∃ mid, as = pre ++ x :: mid) ∨ (pre = as ∧ x = a ∧ post = bs) ∨
      ∃ mid, pre = as ++ a :: mid ∧ bs = mid ++ x :: post := by
  rcases List.append_eq_append_iff.1 h with ⟨mid, hpre, hrest⟩ | ⟨mid, has, hrest⟩
  · cases mid with
    | nil =>
      rw [List.nil_append, List.cons.injEq] at hrest
      exact .inr (.inl ⟨by rw [hpre, List.append_nil], hrest.1.symm, hrest.2.symm⟩)
    | cons y mid =>
      rw [List.cons_append, List.cons.injEq] at hrest
      exact .inr (.inr ⟨mid, by rw [hpre, hrest.1], hrest.2⟩)
  · cases mid with
    | nil =>
      rw [List.nil_append, List.cons.injEq] at hrest
      exact .inr (.inl ⟨by rw [has, List.append_nil], hrest⟩)
    | cons y mid =>
      rw [List.cons_append, List.cons.injEq] at hrest
      exact .inl ⟨mid, by rw [has, hrest.1]⟩

namespace Nested

theorem append {is js : List ShortItem} (h : Nested is) (h' : Nested js) : Nested (is ++ js) := by
  induction h with
  | nil => exact h'
  | plain hi _ ih => exact .plain hi ih
  | group hc hinner he _ _ ih =>
    rw [List.cons_append, List.append_assoc, List.cons_append]
    exact .group hc hinner he ih

theorem of_all {is : List ShortItem} (h : is.all (·.kind.isPlain) = true) : Nested is := by
  induction is with
  | nil => exact .nil
  | cons i is ih =>
    rw [List.all_cons, Bool.and_eq_true] at h
    exact .plain h.1 (ih h.2)

theorem flatMap {α : Type} {items : α → List ShortItem} {as : List α}
    (h : ∀ a ∈ as, Nested (items a)) : Nested (as.flatMap items) := by
  induction as with
  | nil => exact .nil
  | cons a as ih =>
    rw [List.forall_mem_cons] at h
    exact h.1.append (ih h.2)

variable {is pre post : List ShortItem}

theorem depthAfter_eq (h : Nested is) (depth : Nat) : depthAfter depth is = depth := by
  induction h generalizing depth with
  | nil => rfl
  | plain hi _ ih => rw [depthAfter_cons, depthPast_of_isPlain hi, ih]
  | group hc _ he _ ihinner ihrest =>
    rw [depthAfter_cons, depthAfter_append, depthAfter_cons, depthPast_of_collection hc, ihinner,
      depthPast_of_endCollection he, Nat.add_sub_cancel, ihrest]

/-- On the way the counter never falls below where it began. The end of a collection has its
beginning before it, and what lies between them nests. -/
theorem of_split {i : ShortItem} (h : Nested is) (hsplit : is = pre ++ i :: post) :
    (∀ depth, depth ≤ depthAfter depth pre) ∧
      (i.kind = .endCollection →
        ∃ before c inner, pre = before ++ c :: inner ∧ c.kind = .collection ∧ Nested inner) := by
  induction h generalizing pre post with
  | nil =>
    rw [List.nil_eq_append_iff] at hsplit
    cases hsplit.2
  | @plain j is hj _ ih =>
    cases pre with
    | nil =>
      rw [List.nil_append, List.cons.injEq] at hsplit
      refine ⟨fun depth => Nat.le_refl depth, fun hi => ?_⟩
      rw [hsplit.1, hi] at hj
      cases hj
    | cons k pre =>
      rw [List.cons_append, List.cons.injEq] at hsplit
      obtain ⟨rfl, hsplit⟩ := hsplit
      obtain ⟨hle, hbegin⟩ := ih hsplit
      refine ⟨fun depth => ?_, fun hi => ?_⟩
      · rw [depthAfter_cons, depthPast_of_isPlain hj]
        exact hle depth
      · obtain ⟨before, c, inner, rfl, hc, hinner⟩ := hbegin hi
        exact ⟨j :: before, c, inner, rfl, hc, hinner⟩
  | @group c e inner rest hc hinner he _ ihinner ihrest =>
    cases pre with
    | nil =>
      rw [List.nil_append, List.cons.injEq] at hsplit
      refine ⟨fun depth => Nat.le_refl depth, fun hi => ?_⟩
      rw [hsplit.1, hi] at hc
      cases hc
    | cons k pre =>
      rw [List.cons_append, List.cons.injEq] at hsplit
      obtain ⟨rfl, hsplit⟩ := hsplit
      simp only [depthAfter_cons, depthPast_of_collection hc]
      rcases of_append_cons_eq hsplit with ⟨mid, hmid⟩ | ⟨rfl, -, -⟩ | ⟨mid, rfl, hrest⟩
      · obtain ⟨hle, hbegin⟩ := ihinner hmid
        refine ⟨fun depth => Nat.le_of_succ_le (hle (depth + 1)), fun hi => ?_⟩
        obtain ⟨before, c', inner', rfl, hc', hinner'⟩ := hbegin hi
        exact ⟨c :: before, c', inner', rfl, hc', hinner'⟩
      · refine ⟨fun depth => ?_, fun _ => ⟨[], c, pre, rfl, hc, hinner⟩⟩
        rw [hinner.depthAfter_eq]
        exact Nat.le_succ depth
      · obtain ⟨hle, hbegin⟩ := ihrest hrest
        refine ⟨fun depth => ?_, fun hi => ?_⟩
        · rw [depthAfter_append, depthAfter_cons, hinner.depthAfter_eq,
            depthPast_of_endCollection he, Nat.add_sub_cancel]
          exact hle depth
        · obtain ⟨before, c', inner', rfl, hc', hinner'⟩ := hbegin hi
          exact ⟨c :: (inner ++ e :: before), c', inner', by simp, hc', hinner'⟩

theorem le_depthAfter (h : Nested is) (hsplit : is = pre ++ post) (depth : Nat) :
    depth ≤ depthAfter depth pre := by
  cases post with
  | nil =>
    rw [List.append_nil] at hsplit
    rw [← hsplit, h.depthAfter_eq]
  | cons i post => exact (h.of_split hsplit).1 depth

/-- At the end of a collection there is one to be ended. -/
theorem pos_depthAfter {i : ShortItem} (h : Nested is) (hsplit : is = pre ++ i :: post)
    (hi : i.kind = .endCollection) (depth : Nat) : 0 < depthAfter depth pre := by
  obtain ⟨before, c, inner, rfl, hc, hinner⟩ := (h.of_split hsplit).2 hi
  rw [depthAfter_append, depthAfter_cons, depthPast_of_collection hc, hinner.depthAfter_eq]
  exact Nat.succ_pos _

end Nested

namespace ShortItem

variable {depth : Nat} {i : ShortItem}

/-- The collections that begin among the items. -/
def begun (is : List ShortItem) : Nat :=
  is.countP (·.kind = .collection)

/-- The collections that end among the items. -/
def ended (is : List ShortItem) : Nat :=
  is.countP (·.kind = .endCollection)

theorem begun_cons (i : ShortItem) (is : List ShortItem) :
    begun (i :: is) = begun is + if i.kind = .collection then 1 else 0 := by
  simp only [begun, List.countP_cons, decide_eq_true_eq]

theorem ended_cons (i : ShortItem) (is : List ShortItem) :
    ended (i :: is) = ended is + if i.kind = .endCollection then 1 else 0 := by
  simp only [ended, List.countP_cons, decide_eq_true_eq]

theorem ended_concat (is : List ShortItem) (i : ShortItem) :
    ended (is ++ [i]) = ended is + if i.kind = .endCollection then 1 else 0 := by
  simp only [ended, List.countP_append, List.countP_singleton, decide_eq_true_eq]

theorem depthPast_add (h : i.kind = .endCollection → 0 < depth) :
    i.depthPast depth + (if i.kind = .endCollection then 1 else 0) =
      depth + if i.kind = .collection then 1 else 0 := by
  by_cases hend : i.kind = .endCollection
  · have hpos := h hend
    rw [depthPast_of_endCollection hend, hend, if_pos rfl, if_neg (by decide)]
    omega
  · by_cases hbegin : i.kind = .collection
    · rw [depthPast_of_collection hbegin, hbegin, if_pos rfl, if_neg (by decide)]
    · rw [depthPast_of_isPlain (ItemKind.isPlain_iff.2 ⟨hbegin, hend⟩), if_neg hend, if_neg hbegin]

/-- The counter is the difference between beginnings and ends, unless it stops at zero. -/
theorem depthAfter_add_ended {is : List ShortItem}
    (h : ∀ pre i post, is = pre ++ i :: post → i.kind = .endCollection →
      0 < depthAfter depth pre) : depthAfter depth is + ended is = depth + begun is := by
  induction is generalizing depth with
  | nil => rfl
  | cons i is ih =>
    have hstep := depthPast_add (h [] i is rfl)
    have hlater := ih fun pre j post hsplit hj => h (i :: pre) j post (by rw [hsplit]; rfl) hj
    rw [depthAfter_nil] at hstep
    rw [depthAfter_cons, ended_cons, begun_cons]
    omega

end ShortItem

/-- So no prefix of the items ends more collections than it begins. -/
theorem Nested.depthAfter_add_ended {is pre post : List ShortItem} (h : Nested is)
    (hsplit : is = pre ++ post) : depthAfter 0 pre + ended pre = begun pre := by
  have hends : ∀ before i after, pre = before ++ i :: after → i.kind = .endCollection →
      0 < depthAfter 0 before := by
    intro before i after hpre hi
    exact h.pos_depthAfter (by rw [hsplit, hpre, List.append_assoc, List.cons_append]) hi 0
  rw [ShortItem.depthAfter_add_ended hends, Nat.zero_add]

/-! ## The items of a descriptor -/

namespace Emission

theorem isPlain_usageItems (us : List DocumentedUsage) :
    (usageItems us).all (·.kind.isPlain) = true := by
  cases us with
  | nil => rfl
  | cons u us =>
    rw [usageItems, List.all_cons, List.all_map]
    exact List.all_eq_true.2 fun _ _ => rfl

theorem nested_dataEvents (r : ReportKind) {us : List ShortItem}
    (hus : us.all (·.kind.isPlain) = true) (f : DataField) (count : Nat) (g : Grouping) :
    Nested (itemsOf (dataEvents (some r) us f count g)) := by
  rw [itemsOf_dataEvents]
  refine (Nested.append (.of_all hus) (.of_all rfl)).append (.of_all ?_)
  cases r <;> rfl

theorem nested_leafEvents (r : ReportKind) (l : Leaf) :
    Nested (itemsOf (leafEvents (some r) l)) := by
  cases l with
  | single v => exact nested_dataEvents r (isPlain_usageItems _) _ _ _
  | range v => exact nested_dataEvents r rfl _ _ _
  | array s => exact nested_dataEvents r rfl _ _ _
  | padding w =>
    refine .of_all ?_
    cases r <;> rfl

theorem nested_runEvents (r : ReportKind) (q : Run) : Nested (itemsOf (q.events (some r))) := by
  by_cases hothers : q.others = []
  · rw [Run.events, if_pos (List.isEmpty_iff.2 hothers)]
    exact nested_leafEvents r _
  · rw [Run.events_of_others_ne_nil hothers]
    exact nested_dataEvents r (isPlain_usageItems _) _ _ _

theorem nested_pending (r : ReportKind) (run : Option Run) :
    Nested (itemsOf (run.elim [] (Run.events (some r)))) := by
  cases run with
  | none => exact .nil
  | some q => exact nested_runEvents r q

theorem nested_siblingEvents (optimize : Bool) (r : ReportKind) (run : Option Run)
    (f : FieldForest) : Nested (itemsOf (siblingEvents optimize (some r) run f)) := by
  fun_induction siblingEvents optimize (some r) run f with
  | case1 run => exact nested_pending r run
  | case2 v rest h ih => exact ih
  | case3 v rest h ih =>
    rw [itemsOf_append]
    exact (nested_leafEvents r _).append ih
  | case4 v rest q h ih => exact ih
  | case5 v rest q h ih =>
    rw [itemsOf_append]
    exact (nested_runEvents r q).append ih
  | case6 run l rest h ih =>
    rw [itemsOf_append, itemsOf_append]
    exact ((nested_pending r run).append (nested_leafEvents r l)).append ih
  | case7 run c children rest ihc ihr =>
    simp only [itemsOf_append, List.append_assoc]
    exact (nested_pending r run).append (.plain rfl (.plain rfl (.group rfl ihc rfl ihr)))

theorem nested_reportEvents (optimize : Bool) (r : Report) :
    Nested (itemsOf (reportEvents optimize r)) :=
  .plain rfl (nested_siblingEvents optimize r.kind none r.children)

end Emission

/-- Items that stand in one collection, but for those that say what it is for. -/
inductive Enclosed : List ShortItem → Prop
  | intro {header inner : List ShortItem} {c e : ShortItem}
      (hheader : ∀ i ∈ header, i.kind.isPlain = true ∧ i.kind.needsCollection = false)
      (hc : c.kind = .collection) (hinner : Nested inner) (he : e.kind = .endCollection) :
      Enclosed (header ++ c :: (inner ++ [e]))

namespace Enclosed

variable {is pre post : List ShortItem}

theorem nested_header {header : List ShortItem}
    (h : ∀ i ∈ header, i.kind.isPlain = true ∧ i.kind.needsCollection = false) : Nested header :=
  .of_all (List.all_eq_true.2 fun i hi => (h i hi).1)

theorem nested (h : Enclosed is) : Nested is := by
  cases h with
  | intro hheader hc hinner he =>
    exact (nested_header hheader).append (.group hc hinner he .nil)

/-- The last item brings the counter back to zero. -/
theorem exists_last (h : Enclosed is) : ∃ pre e, is = pre ++ [e] ∧ 0 < depthAfter 0 pre := by
  cases h with
  | @intro header inner c e hheader hc hinner he =>
    refine ⟨header ++ c :: inner, e, by simp, ?_⟩
    rw [depthAfter_append, depthAfter_cons, depthPast_of_collection hc, hinner.depthAfter_eq]
    exact Nat.succ_pos _

/-- The counter is above zero at whatever needs a collection, and nowhere but at the last item
does it fall to zero. -/
theorem of_split {i : ShortItem} (h : Enclosed is) (hsplit : is = pre ++ i :: post) :
    (i.kind.needsCollection = true → 0 < depthAfter 0 pre) ∧
      (0 < depthAfter 0 pre → depthAfter 0 (pre ++ [i]) = 0 → post = []) := by
  cases h with
  | @intro header inner c e hheader hc hinner he =>
    have hzero := (nested_header hheader).depthAfter_eq 0
    rcases of_append_cons_eq hsplit with ⟨mid, rfl⟩ | ⟨rfl, rfl, -⟩ | ⟨mid, rfl, hmid⟩
    · rw [List.forall_mem_append, List.forall_mem_cons] at hheader
      rw [(nested_header hheader.1).depthAfter_eq]
      refine ⟨fun hneeds => ?_, fun hpos => absurd hpos (Nat.lt_irrefl 0)⟩
      rw [hheader.2.1.2] at hneeds
      cases hneeds
    · rw [hzero]
      refine ⟨fun hneeds => ?_, fun hpos => absurd hpos (Nat.lt_irrefl 0)⟩
      rw [hc] at hneeds
      cases hneeds
    · have hopen {before after : List ShortItem} (h : inner = before ++ after) :
          0 < depthAfter 0 (header ++ c :: before) := by
        rw [depthAfter_append, depthAfter_cons, hzero, depthPast_of_collection hc]
        exact hinner.le_depthAfter h 1
      rcases of_append_cons_eq hmid with ⟨rest, hrest⟩ | ⟨rfl, -, hpost⟩ | ⟨rest, -, hrest⟩
      · have hpast := hopen (show inner = (mid ++ [i]) ++ rest by rw [hrest]; simp)
        refine ⟨fun _ => hopen hrest, fun _ hback => ?_⟩
        rw [List.append_assoc, List.cons_append] at hback
        omega
      · exact ⟨fun _ => hopen (List.append_nil mid).symm, fun _ _ => hpost⟩
      · rw [List.nil_eq_append_iff] at hrest
        cases hrest.2

end Enclosed

namespace GlobalState

theorem dropRedundant_cons_of_ne_globalItem {i : ShortItem} (h : i.kind.category ≠ .globalItem)
    (t : GlobalState) (is : List ShortItem) :
    t.dropRedundant (i :: is) = i :: t.dropRedundant is := by
  rw [dropRedundant, isRedundant_of_ne_globalItem h, if_neg Bool.false_ne_true,
    after_of_ne_globalItem h]

/-- What comes later is looked at with a table of its own. -/
theorem exists_dropRedundant_append (t : GlobalState) (is : List ShortItem) :
    ∃ t' : GlobalState, ∀ js,
      t.dropRedundant (is ++ js) = t.dropRedundant is ++ t'.dropRedundant js := by
  induction is generalizing t with
  | nil => exact ⟨t, fun _ => rfl⟩
  | cons i is ih =>
    cases hred : t.isRedundant i with
    | true =>
      obtain ⟨t', h⟩ := ih t
      refine ⟨t', fun js => ?_⟩
      rw [List.cons_append, dropRedundant, dropRedundant, hred, if_pos rfl, if_pos rfl, h]
    | false =>
      obtain ⟨t', h⟩ := ih (t.after i)
      refine ⟨t', fun js => ?_⟩
      rw [List.cons_append, dropRedundant, dropRedundant, hred, if_neg Bool.false_ne_true,
        if_neg Bool.false_ne_true, h, List.cons_append]

end GlobalState

/-- Elision leaves out global items, which neither begin nor end a collection. -/
theorem Nested.dropRedundant {is : List ShortItem} (h : Nested is) (t : GlobalState) :
    Nested (t.dropRedundant is) := by
  induction h generalizing t with
  | nil => exact .nil
  | plain hi _ ih =>
    rw [GlobalState.dropRedundant]
    split
    · exact ih t
    · exact .plain hi (ih _)
  | @group c e inner rest hc _ he _ ihinner ihrest =>
    obtain ⟨t', happend⟩ := t.exists_dropRedundant_append inner
    rw [GlobalState.dropRedundant_cons_of_ne_globalItem (by rw [hc]; decide), happend,
      GlobalState.dropRedundant_cons_of_ne_globalItem (by rw [he]; decide)]
    exact .group hc (ihinner t) he (ihrest t')

theorem Enclosed.dropRedundant {is : List ShortItem} (h : Enclosed is) (t : GlobalState) :
    Enclosed (t.dropRedundant is) := by
  cases h with
  | @intro header inner c e hheader hc hinner he =>
    obtain ⟨t', hafter⟩ := t.exists_dropRedundant_append header
    obtain ⟨t'', hend⟩ := t'.exists_dropRedundant_append inner
    rw [hafter, GlobalState.dropRedundant_cons_of_ne_globalItem (by rw [hc]; decide), hend,
      GlobalState.dropRedundant_cons_of_ne_globalItem (by rw [he]; decide)]
    exact .intro (fun i hi => hheader i ((t.sublist_dropRedundant header).subset hi)) hc
      (hinner.dropRedundant t') he

/-! ## One application after the other -/

section Blocks

variable {blocks : List (List ShortItem)}

theorem nested_flatten (h : ∀ b ∈ blocks, Enclosed b) : Nested blocks.flatten := by
  rw [← List.flatMap_id']
  exact .flatMap fun b hb => (h b hb).nested

theorem exists_dropRedundant_flatten (h : ∀ b ∈ blocks, Enclosed b) (t : GlobalState) :
    ∃ kept : List (List ShortItem), kept.length = blocks.length ∧ (∀ b ∈ kept, Enclosed b) ∧
      ∀ n, t.dropRedundant (blocks.take n).flatten = (kept.take n).flatten := by
  induction blocks generalizing t with
  | nil => exact ⟨[], rfl, h, fun n => by rw [List.take_nil]; rfl⟩
  | cons b blocks ih =>
    rw [List.forall_mem_cons] at h
    obtain ⟨t', hafter⟩ := t.exists_dropRedundant_append b
    obtain ⟨kept, hlength, hkept, heq⟩ := ih h.2 t'
    refine ⟨t.dropRedundant b :: kept, by rw [List.length_cons, List.length_cons, hlength],
      List.forall_mem_cons.2 ⟨h.1.dropRedundant t, hkept⟩, fun n => ?_⟩
    cases n with
    | zero => rfl
    | succ n =>
      rw [List.take_succ_cons, List.take_succ_cons, List.flatten_cons, List.flatten_cons, hafter,
        heq]

theorem exists_of_flatten_eq {α : Type} {bs : List (List α)} {pre post : List α} {x : α}
    (h : bs.flatten = pre ++ x :: post) :
    ∃ n b before after, bs[n]? = some b ∧ b = before ++ x :: after ∧
      pre = (bs.take n).flatten ++ before := by
  induction bs generalizing pre with
  | nil =>
    rw [List.flatten_nil, List.nil_eq_append_iff] at h
    cases h.2
  | cons b bs ih =>
    rw [List.flatten_cons] at h
    have hlater (mid : List α) (hpre : pre = b ++ mid) (hrest : bs.flatten = mid ++ x :: post) :
        ∃ n b' before after, (b :: bs)[n]? = some b' ∧ b' = before ++ x :: after ∧
          pre = ((b :: bs).take n).flatten ++ before := by
      obtain ⟨n, b', before, after, hget, hb, rfl⟩ := ih hrest
      refine ⟨n + 1, b', before, after, hget, hb, ?_⟩
      rw [hpre, List.take_succ_cons, List.flatten_cons, List.append_assoc]
    rcases List.append_eq_append_iff.1 h with ⟨mid, hpre, hrest⟩ | ⟨mid, hb, hrest⟩
    · exact hlater mid hpre hrest
    · cases mid with
      | nil =>
        rw [List.append_nil] at hb
        exact hlater [] (by rw [hb, List.append_nil]) hrest.symm
      | cons y mid =>
        rw [List.cons_append, List.cons.injEq] at hrest
        exact ⟨0, b, pre, mid, rfl, by rw [hb, hrest.1], rfl⟩

theorem flatten_take_succ {n : Nat} {b : List ShortItem} (h : blocks[n]? = some b) :
    (blocks.take (n + 1)).flatten = (blocks.take n).flatten ++ b := by
  rw [List.take_add_one, h, List.flatten_append]
  simp

/-- The blocks before an item leave the counter at zero. -/
theorem depthAfter_take_append (h : ∀ b ∈ blocks, Enclosed b) (n : Nat) (is : List ShortItem) :
    depthAfter 0 ((blocks.take n).flatten ++ is) = depthAfter 0 is := by
  have hbefore : Nested (blocks.take n).flatten :=
    nested_flatten fun b hb => h b (List.mem_of_mem_take hb)
  rw [depthAfter_append, hbefore.depthAfter_eq]

theorem exists_last_of_lt (h : ∀ b ∈ blocks, Enclosed b) {n : Nat} (hn : n < blocks.length) :
    ∃ pre e, (blocks.take (n + 1)).flatten = pre ++ [e] ∧ 0 < depthAfter 0 pre := by
  have hget := List.getElem?_eq_getElem hn
  obtain ⟨pre, e, hb, hpos⟩ := (h _ (List.getElem_mem hn)).exists_last
  refine ⟨(blocks.take n).flatten ++ pre, e, ?_, ?_⟩
  · rw [flatten_take_succ hget, hb, List.append_assoc]
  · rwa [depthAfter_take_append h]

/-- The counter falls to zero with the last item of a block, and only there. -/
theorem falls_iff_of_flatten_eq (h : ∀ b ∈ blocks, Enclosed b) {pre post : List ShortItem}
    {i : ShortItem} (hsplit : blocks.flatten = pre ++ i :: post) :
    (1 ≤ depthAfter 0 pre ∧ depthAfter 0 (pre ++ [i]) = 0) ↔
      ∃ n < blocks.length, (blocks.take (n + 1)).flatten = pre ++ [i] := by
  constructor
  · rintro ⟨hpos, hzero⟩
    obtain ⟨n, b, before, after, hget, hb, rfl⟩ := exists_of_flatten_eq hsplit
    have hn := (List.getElem?_eq_some_iff.1 hget).1
    have hlast := (h b (List.mem_of_getElem? hget)).of_split hb
    rw [List.append_assoc, depthAfter_take_append h] at hzero
    rw [depthAfter_take_append h] at hpos
    obtain rfl := hlast.2 hpos hzero
    exact ⟨n, hn, by rw [flatten_take_succ hget, hb, List.append_assoc]⟩
  · rintro ⟨n, hn, heq⟩
    obtain ⟨before, e, hlast, hpos⟩ := exists_last_of_lt h hn
    have hzero := depthAfter_take_append h (n + 1) []
    rw [List.append_nil, heq] at hzero
    obtain ⟨rfl, -⟩ := List.append_inj' (heq.symm.trans hlast) rfl
    exact ⟨hpos, hzero⟩

end Blocks

namespace Emission

theorem enclosed_applicationEvents (optimize : Bool) (a : Application) :
    Enclosed (itemsOf (applicationEvents optimize a)) := by
  have hinner : Nested (a.reports.flatMap fun r => itemsOf (reportEvents optimize r)) :=
    .flatMap fun r _ => nested_reportEvents optimize r
  have hheader : ∀ i ∈ [ShortItem.ofNat .usagePage a.usage.page.toNat,
      .ofNat .usage a.usage.id.toNat], i.kind.isPlain = true ∧ i.kind.needsCollection = false := by
    simp only [List.forall_mem_cons]
    exact ⟨⟨rfl, rfl⟩, ⟨rfl, rfl⟩, List.forall_mem_nil _⟩
  rw [applicationEvents, itemsOf_append, itemsOf_append, itemsOf_flatMap, List.append_assoc]
  exact .intro hheader rfl hinner rfl

end Emission

namespace Descriptor

open Emission

/-- The descriptor of the first `n` applications. -/
def upTo (d : Descriptor) (n : Nat) : Descriptor :=
  ⟨d.applications.take n⟩

/-- The items come in one block for each application. -/
theorem exists_blocks (d : Descriptor) (o : Options) :
    ∃ blocks : List (List ShortItem), blocks.length = d.applications.length ∧
      (∀ b ∈ blocks, Enclosed b) ∧
      ∀ n, ((d.upTo n).items o).result = .ok (blocks.take n).flatten := by
  let written := d.applications.map fun a => itemsOf (applicationEvents o.optimize a)
  have hlength : written.length = d.applications.length := List.length_map _
  have henclosed : ∀ b ∈ written, Enclosed b :=
    List.forall_mem_map.2 fun a _ => enclosed_applicationEvents o.optimize a
  have hitems (n : Nat) : itemsOf ((d.upTo n).applications.flatMap (applicationEvents o.optimize)) =
      (written.take n).flatten := by
    rw [itemsOf_flatMap, upTo, List.flatMap_def, List.map_take]
  cases helide : o.elide with
  | false =>
    refine ⟨written, hlength, henclosed, fun n => ?_⟩
    rw [result_items, helide, hitems]
    rfl
  | true =>
    obtain ⟨kept, hkept, hall, heq⟩ := exists_dropRedundant_flatten henclosed {}
    refine ⟨kept, hkept.trans hlength, hall, fun n => ?_⟩
    rw [result_items, helide, hitems, ← heq]
    rfl

/-- How the collections among the items of a descriptor lie in each other. The counter is that of
a listing, and each position is a place where the items are split. -/
structure Balanced (d : Descriptor) (o : Options) (items : List ShortItem) : Prop where
  nested : Nested items
  counter_eq : ∀ pre post, items = pre ++ post → depthAfter 0 pre + ended pre = begun pre
  unsaturated : ∀ pre i post, items = pre ++ i :: post → i.kind = .endCollection →
    1 ≤ depthAfter 0 pre
  /-- A collection ends where it has begun. -/
  begins : ∀ pre i post, items = pre ++ i :: post → i.kind = .endCollection →
    ∃ before c inner, pre = before ++ c :: inner ∧ c.kind = .collection ∧ Nested inner ∧
      i.depthAt (depthAfter 0 pre) = c.depthAt (depthAfter 0 before)
  within : ∀ pre i post, items = pre ++ i :: post →
    i.kind ∈ [.input, .output, .feature, .reportId] → 1 ≤ depthAfter 0 pre
  /-- The counter falls to zero where an application ends, and only there. -/
  falls_iff : ∀ pre i post, items = pre ++ i :: post →
    (1 ≤ depthAfter 0 pre ∧ depthAfter 0 (pre ++ [i]) = 0 ↔
      ∃ n < d.applications.length, ((d.upTo (n + 1)).items o).result = .ok (pre ++ [i]))
  ends : ∀ n < d.applications.length, ∃ pre i post, items = pre ++ i :: post ∧
    ((d.upTo (n + 1)).items o).result = .ok (pre ++ [i])

theorem balanced_items {d : Descriptor} {o : Options} {items : List ShortItem}
    (h : (d.items o).result = .ok items) : d.Balanced o items := by
  obtain ⟨blocks, hlength, hall, heq⟩ := d.exists_blocks o
  have hitems : items = blocks.flatten := by
    have hwhole := heq d.applications.length
    rw [upTo, List.take_length, ← hlength, List.take_length] at hwhole
    exact Except.ok.inj (h.symm.trans hwhole)
  have hnested : Nested items := hitems ▸ nested_flatten hall
  refine ⟨hnested, fun pre post => hnested.depthAfter_add_ended,
    fun pre i post hsplit hi => hnested.pos_depthAfter hsplit hi 0, ?_, ?_, ?_, ?_⟩
  · intro pre i post hsplit hi
    obtain ⟨before, c, inner, rfl, hc, hinner⟩ := (hnested.of_split hsplit).2 hi
    refine ⟨before, c, inner, rfl, hc, hinner, ?_⟩
    rw [depthAfter_append, depthAfter_cons, depthPast_of_collection hc, hinner.depthAfter_eq,
      depthAt, if_pos hi, depthAt, hc, if_neg (by decide), Nat.add_sub_cancel]
  · intro pre i post hsplit hkind
    rw [hitems] at hsplit
    obtain ⟨n, b, before, after, hget, hb, rfl⟩ := exists_of_flatten_eq hsplit
    have hblock := (hall b (List.mem_of_getElem? hget)).of_split hb
    rw [depthAfter_take_append hall]
    exact hblock.1 (ItemKind.needsCollection_iff.2 hkind)
  · intro pre i post hsplit
    rw [hitems] at hsplit
    rw [falls_iff_of_flatten_eq hall hsplit, hlength]
    simp only [heq, Except.ok.injEq]
  · intro n hn
    obtain ⟨pre, e, hlast, -⟩ := exists_last_of_lt hall (hlength ▸ hn)
    refine ⟨pre, e, (blocks.drop (n + 1)).flatten, ?_, by rw [heq, hlast]⟩
    rw [hitems, ← List.take_append_drop (n + 1) blocks, List.flatten_append, hlast]
    simp

end Descriptor

end ReportDescriptor
