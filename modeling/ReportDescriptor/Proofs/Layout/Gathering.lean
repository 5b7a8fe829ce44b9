import ReportDescriptor.Proofs.Layout.Appending
import ReportDescriptor.Proofs.Layout.Shape
import ReportDescriptor.Proofs.Layout.Stability

/-!
# Paddings are merged as far as they can be

Merging the first two paddings that fit, over and over, gathers each run of paddings from the left:
a padding takes in those after it as long as they fit. No other way to cut the run into paddings
makes fewer of them, since what fits from some bit on still fits without its beginning, so that the
paddings gathered from the left are never behind.
-/

namespace ReportDescriptor

namespace Layout

variable {index offset : Nat} {u v w : BitWidth} {a b l : Leaf} {ls : List Leaf}

theorem exists_merged? (h : offset % 8 + (u.bits + v.bits) ≤ 32) :
    ∃ w, merged? offset (.padding u) (.padding v) = some w ∧ w.bits = u.bits + v.bits := by
  have hu := u.one_le
  refine ⟨⟨u.bits + v.bits, by omega, by omega⟩, ?_, rfl⟩
  rw [merged?, Option.filter_eq_some_iff, Bool.not_eq_true', overspans_one_eq_false_iff]
  exact ⟨dif_pos (by omega), h⟩

theorem merged?_padding_eq_none (h : 32 < offset % 8 + (u.bits + v.bits)) :
    merged? offset (.padding u) (.padding v) = none := by
  cases hmerged : merged? offset (.padding u) (.padding v) with
  | none => rfl
  | some w =>
    obtain ⟨u', v', hu, hv, hbits, hreach⟩ := of_merged? hmerged
    cases hu
    cases hv
    omega

/-- A padding that cannot take in another cannot take in a longer one. -/
theorem merged?_eq_none_of_le (h : merged? offset a (.padding v) = none) (hle : v.bits ≤ w.bits) :
    merged? offset a (.padding w) = none := by
  cases hpad : a.isPadding with
  | false => exact merged?_of_not_padding offset (.inl hpad)
  | true =>
    obtain ⟨u, rfl⟩ := Leaf.exists_eq_padding hpad
    refine merged?_padding_eq_none ?_
    by_contra hnot
    have hroom : offset % 8 + (u.bits + v.bits) ≤ 32 := by omega
    obtain ⟨x, hx, -⟩ := exists_merged? hroom
    rw [h] at hx
    cases hx

/-- One pass from left to right, in which a padding takes in the next one whenever it can. -/
def gatherFrom (offset : Nat) (a : Leaf) : List Leaf → List Leaf
  | [] => [a]
  | b :: ls =>
    match merged? offset a b with
    | some w => gatherFrom offset (.padding w) ls
    | none => a :: gatherFrom (offset + a.bits) b ls

def gather (offset : Nat) : List Leaf → List Leaf
  | [] => []
  | a :: ls => gatherFrom offset a ls

theorem gather_of_merged? (h : merged? offset a b = some w) :
    gather offset (a :: b :: ls) = gather offset (.padding w :: ls) := by
  rw [gather, gatherFrom, h]
  rfl

theorem gather_of_not_merged? (h : merged? offset a b = none) :
    gather offset (a :: b :: ls) = a :: gather (offset + a.bits) (b :: ls) := by
  rw [gather, gatherFrom, h]
  rfl

/-- The first merger is one that the pass would make, too. -/
theorem gather_of_firstMerger? {e : Edit} (h : firstMerger? index offset ls = some e) :
    ∃ pre u v post w, ls = pre ++ .padding u :: .padding v :: post ∧
      e = .mergePadding (index + pre.length) w ∧ w.bits = u.bits + v.bits ∧
      gather offset (pre ++ .padding w :: post) = gather offset ls := by
  induction ls generalizing index offset with
  | nil => cases h
  | cons a ls ih =>
    cases ls with
    | nil => cases h
    | cons b ls =>
      rw [firstMerger?] at h
      cases hmerged : merged? offset a b with
      | some w =>
        rw [hmerged] at h
        have hgather : gather offset (a :: b :: ls) = gather offset (.padding w :: ls) :=
          gather_of_merged? hmerged
        obtain ⟨u, v, rfl, rfl, hbits, -⟩ := of_merged? hmerged
        exact ⟨[], u, v, ls, w, rfl, (Option.some.inj h).symm, hbits, hgather.symm⟩
      | none =>
        rw [hmerged] at h
        obtain ⟨pre, u, v, post, w, hls, he, hbits, hgather⟩ := ih h
        refine ⟨a :: pre, u, v, post, w, by rw [hls, List.cons_append], ?_, hbits, ?_⟩
        · rw [he, List.length_cons, Nat.add_assoc, Nat.add_comm 1]
        · rw [gather_of_not_merged? hmerged, ← hgather]
          -- What comes after `a` is `b`, or else a padding that has taken `b` in.
          cases pre with
          | nil =>
            obtain ⟨rfl, rfl⟩ := List.cons.inj hls
            exact gather_of_not_merged? (merged?_eq_none_of_le hmerged (by omega))
          | cons c pre =>
            obtain ⟨rfl, rfl⟩ := List.cons.inj hls
            exact gather_of_not_merged? hmerged

theorem gather_of_firstMerger?_eq_none (h : firstMerger? index offset ls = none) :
    gather offset ls = ls := by
  induction ls generalizing index offset with
  | nil => rfl
  | cons a ls ih =>
    cases ls with
    | nil => rfl
    | cons b ls =>
      rw [firstMerger?] at h
      cases hmerged : merged? offset a b with
      | some w =>
        rw [hmerged] at h
        cases h
      | none =>
        rw [hmerged] at h
        rw [gather_of_not_merged? hmerged, ih h]

theorem gather_of_merge? {f g : FieldForest} {records : List LogRecord}
    (h : merge? f = some (records, g)) : gather 0 g.leaves = gather 0 f.leaves := by
  simp only [merge?, Option.bind_eq_bind, Option.bind_eq_some_iff, Option.pure_def,
    Option.some.injEq, Prod.mk.injEq] at h
  obtain ⟨e, he, -, rfl⟩ := h
  obtain ⟨pre, u, v, post, w, hleaves, rfl, -, hgather⟩ := gather_of_firstMerger? he
  rw [← hgather, Nat.zero_add, Edit.leaves_mergePadding hleaves]
  rfl

/-- The mergers, one after another, come to the same as the pass. -/
theorem leaves_coalescePadding (f : FieldForest) :
    (coalescePadding f).2.leaves = gather 0 f.leaves := by
  have hgather : gather 0 (coalescePadding f).2.leaves = gather 0 f.leaves :=
    settle_induction (P := fun g => gather 0 g.leaves = gather 0 f.leaves)
      (fun _ _ _ hg h => (gather_of_merge? h).trans hg) _ rfl
  have hfirst : firstMerger? 0 0 (coalescePadding f).2.leaves = none := by
    have hmerge := merge?_coalescePadding f
    cases hfirst : firstMerger? 0 0 (coalescePadding f).2.leaves with
    | none => rfl
    | some e => simp [merge?, hfirst] at hmerge
  rw [← hgather, gather_of_firstMerger?_eq_none hfirst]

theorem total_gatherFrom (offset : Nat) (a : Leaf) (ls : List Leaf) :
    total Leaf.bits (gatherFrom offset a ls) = a.bits + total Leaf.bits ls := by
  fun_induction gatherFrom offset a ls with
  | case1 offset a => rfl
  | case2 offset a b ls w hmerged ih =>
    obtain ⟨u, v, rfl, rfl, hbits, -⟩ := of_merged? hmerged
    rw [ih, total_cons, Leaf.bits_padding, Leaf.bits_padding, Leaf.bits_padding, hbits]
    exact Nat.add_assoc _ _ _
  | case3 offset a b ls hmerged ih => rw [total_cons, ih, total_cons]

theorem total_gather (offset : Nat) (ls : List Leaf) :
    total Leaf.bits (gather offset ls) = total Leaf.bits ls := by
  cases ls with
  | nil => rfl
  | cons a ls => exact total_gatherFrom offset a ls

theorem placements_gatherFrom (offset : Nat) (a : Leaf) (ls : List Leaf) :
    placements offset (gatherFrom offset a ls) = placements offset (a :: ls) := by
  fun_induction gatherFrom offset a ls with
  | case1 offset a => rfl
  | case2 offset a b ls w hmerged ih =>
    obtain ⟨u, v, rfl, rfl, hbits, -⟩ := of_merged? hmerged
    rw [ih, placements_padding, placements_padding, placements_padding, hbits, Nat.add_assoc]
  | case3 offset a b ls hmerged ih => rw [placements, ih, placements.eq_def offset (a :: b :: ls)]

theorem placements_gather (offset : Nat) (ls : List Leaf) :
    placements offset (gather offset ls) = placements offset ls := by
  cases ls with
  | nil => rfl
  | cons a ls => exact placements_gatherFrom offset a ls

theorem gather_cons_of_not_padding (h : l.isPadding = false) (offset : Nat) (ls : List Leaf) :
    gather offset (l :: ls) = l :: gather (offset + l.bits) ls := by
  cases ls with
  | nil => rfl
  | cons b ls => exact gather_of_not_merged? (merged?_of_not_padding offset (.inl h))

/-- No padding is taken in across a field that is none. -/
theorem gather_append_cons (h : l.isPadding = false) (offset : Nat) (as bs : List Leaf) :
    gather offset (as ++ l :: bs) =
      gather offset as ++ l :: gather (offset + total Leaf.bits as + l.bits) bs := by
  cases as with
  | nil => exact gather_cons_of_not_padding h offset bs
  | cons a as =>
    rw [gather, List.cons_append, gather]
    fun_induction gatherFrom offset a as with
    | case1 offset a =>
      have hcons := gather_cons_of_not_padding h (offset + a.bits) bs
      rw [List.nil_append, gatherFrom, merged?_of_not_padding offset (.inr h)]
      exact congrArg (a :: ·) hcons
    | case2 offset a b as w hmerged ih =>
      obtain ⟨u, v, rfl, rfl, hbits, -⟩ := of_merged? hmerged
      rw [List.cons_append, gatherFrom, hmerged]
      simp only [total_cons, Leaf.bits_padding, hbits, Nat.add_assoc] at ih ⊢
      exact ih
    | case3 offset a b as hmerged ih =>
      rw [List.cons_append, gatherFrom, hmerged, total_cons, ← Nat.add_assoc]
      exact congrArg (a :: ·) ih

section Border

variable {as bs : List Leaf}

/-- What is gathered from fields that do not end in padding is the same whatever comes after. -/
theorem gather_append_of_getLast? (h : ∀ l ∈ as.getLast?, l.isPadding = false) (offset : Nat)
    (bs : List Leaf) :
    gather offset (as ++ bs) = gather offset as ++ gather (offset + total Leaf.bits as) bs := by
  rcases List.eq_nil_or_concat as with rfl | ⟨as, l, rfl⟩
  · rfl
  · rw [List.concat_eq_append, List.getLast?_concat] at h
    rw [List.concat_eq_append, List.append_assoc, List.singleton_append,
      gather_append_cons (h l rfl), gather_append_cons (h l rfl), total_append, total_cons,
      total_nil, Nat.add_zero, ← Nat.add_assoc, List.append_assoc]
    rfl

theorem getLast?_gather (h : ∀ l ∈ as.getLast?, l.isPadding = false) (offset : Nat) :
    (gather offset as).getLast? = as.getLast? := by
  rcases List.eq_nil_or_concat as with rfl | ⟨as, l, rfl⟩
  · rfl
  · rw [List.concat_eq_append, List.getLast?_concat] at h ⊢
    rw [gather_append_cons (h l rfl), gather, List.getLast?_concat]

/-- What is gathered from fields that do not begin with padding is the same whatever was before. -/
theorem gather_append_of_head? (h : ∀ l ∈ bs.head?, l.isPadding = false) (offset : Nat)
    (as : List Leaf) :
    gather offset (as ++ bs) = gather offset as ++ gather (offset + total Leaf.bits as) bs := by
  cases bs with
  | nil => rw [List.append_nil, gather, List.append_nil]
  | cons l bs => rw [gather_append_cons (h l rfl), gather_cons_of_not_padding (h l rfl)]

theorem head?_gather (h : ∀ l ∈ bs.head?, l.isPadding = false) (offset : Nat) :
    (gather offset bs).head? = bs.head? := by
  cases bs with
  | nil => rfl
  | cons l bs => rw [gather_cons_of_not_padding (h l rfl), List.head?_cons, List.head?_cons]

end Border

/-- The paddings, cut into groups of which each makes one padding that does not overspan. -/
inductive Cut : Nat → List BitWidth → List (List BitWidth) → Prop
  | nil {offset : Nat} : Cut offset [] []
  | cons {offset : Nat} {group ws : List BitWidth} {groups : List (List BitWidth)}
      (hne : group ≠ []) (hfit : overspans offset (total BitWidth.bits group) 1 = false)
      (hrest : Cut (offset + total BitWidth.bits group) ws groups) :
      Cut offset (group ++ ws) (group :: groups)

/-- The cut in which no group has room for the padding after it. -/
inductive Filled : Nat → List BitWidth → List (List BitWidth) → Prop
  | nil {offset : Nat} : Filled offset [] []
  | cons {offset : Nat} {group ws : List BitWidth} {groups : List (List BitWidth)}
      (hne : group ≠ []) (hfit : offset % 8 + total BitWidth.bits group ≤ 32)
      (hfull : ∀ w ∈ ws.head?, 32 < offset % 8 + total BitWidth.bits group + w.bits)
      (hrest : Filled (offset + total BitWidth.bits group) ws groups) :
      Filled offset (group ++ ws) (group :: groups)

variable {ws vs : List BitWidth} {groups cuts : List (List BitWidth)}

theorem Filled.cut (h : Filled offset ws groups) : Cut offset ws groups := by
  induction h with
  | nil => exact .nil
  | cons hne hfit _ _ ih => exact .cons hne (overspans_one_eq_false_iff.2 hfit) ih

/-- Another cut of the same paddings, which has come to bit `start` and has still to deal with
some paddings that the filled groups are past, takes no fewer groups from there on. -/
theorem Filled.length_le (h : Filled offset ws groups) {start : Nat} (behind : List BitWidth)
    (hcut : Cut start (behind ++ ws) cuts) (hstart : offset = start + total BitWidth.bits behind) :
    groups.length ≤ cuts.length := by
  induction h generalizing start behind cuts with
  | nil => exact Nat.zero_le _
  | @cons offset group ws groups hne hfit hfull hrest ih =>
    generalize hall : behind ++ (group ++ ws) = all at hcut
    cases hcut with
    | nil =>
      have hnil := (List.append_eq_nil_iff.1 (List.append_eq_nil_iff.1 hall).2).1
      exact absurd hnil hne
    | @cons _ first rest cuts _ hfirst hcuts =>
      rw [← List.append_assoc] at hall
      refine Nat.succ_le_succ ?_
      rcases List.append_eq_append_iff.1 hall with ⟨more, rfl, rfl⟩ | ⟨behind', hahead, rfl⟩
      · -- The other group would go beyond the filled one, for which there is no room.
        cases more with
        | nil =>
          rw [List.append_nil] at hcuts
          refine ih [] hcuts ?_
          rw [hstart, total_append, total_nil, Nat.add_zero, Nat.add_assoc]
        | cons w more =>
          have hroom := hfull w rfl
          rw [overspans_one_eq_false_iff, total_append, total_append, total_cons] at hfirst
          omega
      · refine ih behind' hcuts ?_
        have htotal := congrArg (total BitWidth.bits) hahead
        rw [total_append, total_append] at htotal
        omega

/-- The pass fills its groups. The padding in progress is what the paddings in `taken` make. -/
theorem exists_filled_gatherFrom (taken : List BitWidth) (hne : taken ≠ [])
    (htaken : total BitWidth.bits taken = v.bits) (hfit : offset % 8 + v.bits ≤ 32)
    (h : Unspanned (offset + v.bits) (ws.map .padding)) :
    ∃ (vs : List BitWidth) (groups : List (List BitWidth)),
      gatherFrom offset (.padding v) (ws.map .padding) = vs.map .padding ∧
      vs.map BitWidth.bits = groups.map (total BitWidth.bits) ∧
      Filled offset (taken ++ ws) groups := by
  induction ws generalizing offset v taken with
  | nil =>
    refine ⟨[v], [taken], rfl, by rw [List.map_singleton, List.map_singleton, htaken], ?_⟩
    exact .cons hne (by rwa [htaken]) (fun w hw => by cases hw) .nil
  | cons u ws ih =>
    rw [List.map_cons, unspanned_cons, Leaf.bits_padding] at h
    rw [List.map_cons, gatherFrom]
    by_cases hroom : offset % 8 + (v.bits + u.bits) ≤ 32
    · obtain ⟨w, hw, hbits⟩ := exists_merged? hroom
      rw [hw, List.append_cons]
      refine ih (taken ++ [u]) (List.append_ne_nil_of_left_ne_nil hne _) ?_ ?_ ?_
      · rw [total_append, total_cons, total_nil, Nat.add_zero, htaken, hbits]
      · rwa [hbits]
      · rw [hbits, ← Nat.add_assoc]
        exact h.2
    · have hfull := Nat.lt_of_not_le hroom
      rw [merged?_padding_eq_none hfull, Leaf.bits_padding]
      obtain ⟨vs, groups, hgather, hwidths, hfilled⟩ :=
        ih [u] (List.cons_ne_nil u []) (Nat.add_zero _) (overspans_one_eq_false_iff.1 h.1) h.2
      refine ⟨v :: vs, taken :: groups, by rw [hgather, List.map_cons], ?_, ?_⟩
      · rw [List.map_cons, List.map_cons, hwidths, htaken]
      · refine .cons hne (by rwa [htaken]) ?_ (by rwa [htaken])
        rintro w ⟨⟩
        rwa [htaken, Nat.add_assoc]

theorem exists_filled_gather (h : Unspanned offset (ws.map .padding)) :
    ∃ (vs : List BitWidth) (groups : List (List BitWidth)),
      gather offset (ws.map .padding) = vs.map .padding ∧
      vs.map BitWidth.bits = groups.map (total BitWidth.bits) ∧ Filled offset ws groups := by
  cases ws with
  | nil => exact ⟨[], [], rfl, rfl, .nil⟩
  | cons w ws =>
    rw [List.map_cons, unspanned_cons, Leaf.bits_padding] at h
    exact exists_filled_gatherFrom [w] (List.cons_ne_nil w []) (Nat.add_zero _)
      (overspans_one_eq_false_iff.1 h.1) h.2

/-- The paddings `vs` are what one cut makes of the paddings `ws`, and no cut makes fewer. -/
structure Fewest (offset : Nat) (ws vs : List BitWidth) : Prop where
  made : ∃ groups, Cut offset ws groups ∧
    vs.map BitWidth.bits = groups.map (total BitWidth.bits)
  length_le : ∀ groups, Cut offset ws groups → vs.length ≤ groups.length

theorem exists_fewest_gather (h : Unspanned offset (ws.map .padding)) :
    ∃ vs, gather offset (ws.map .padding) = vs.map .padding ∧ Fewest offset ws vs := by
  obtain ⟨vs, groups, hgather, hwidths, hfilled⟩ := exists_filled_gather h
  refine ⟨vs, hgather, ⟨groups, hfilled.cut, hwidths⟩, fun cuts hcut => ?_⟩
  have hlength := congrArg List.length hwidths
  rw [List.length_map, List.length_map] at hlength
  rw [hlength]
  exact hfilled.length_le [] hcut (Nat.add_zero _).symm

/-- Paddings in a row, with no padding just before them and none just after them. -/
structure PaddingRun (ls pre : List Leaf) (ws : List BitWidth) (post : List Leaf) : Prop where
  eq : ls = pre ++ (ws.map .padding ++ post)
  left : ∀ l ∈ pre.getLast?, l.isPadding = false
  right : ∀ l ∈ post.head?, l.isPadding = false

/-- Each run is gathered for itself. -/
theorem PaddingRun.exists_fewest {pre post : List Leaf} (hrun : PaddingRun ls pre ws post)
    (h : Unspanned 0 ls) :
    ∃ vs post', PaddingRun (gather 0 ls) (gather 0 pre) vs post' ∧
      Fewest (total Leaf.bits pre) ws vs := by
  obtain ⟨rfl, hleft, hright⟩ := hrun
  rw [unspanned_append, unspanned_append, Nat.zero_add] at h
  obtain ⟨vs, hgather, hfewest⟩ := exists_fewest_gather h.2.1
  refine ⟨vs, gather (total Leaf.bits pre + total Leaf.bits (ws.map .padding)) post,
    ⟨?_, ?_, ?_⟩, hfewest⟩
  · rw [gather_append_of_getLast? hleft, gather_append_of_head? hright, Nat.zero_add, hgather]
  · rw [getLast?_gather hleft]
    exact hleft
  · rw [head?_gather hright]
    exact hright

/-- Merging comes to an end, moves no field that is not padding, keeps the size and lets nothing
overspan. Each run of paddings is left as few paddings as it can be cut into. -/
theorem coalescePadding_optimal {f : FieldForest} (h : Unspanned 0 f.leaves) :
    (∃ n ≤ f.leaves.length, Settles merge? n f (coalescePadding f)) ∧
      placements 0 (coalescePadding f).2.leaves = placements 0 f.leaves ∧
      (coalescePadding f).2.bits = f.bits ∧ Unspanned 0 (coalescePadding f).2.leaves ∧
      ∀ pre ws post, PaddingRun f.leaves pre ws post →
        ∃ pre' vs post', PaddingRun (coalescePadding f).2.leaves pre' vs post' ∧
          placements 0 pre' = placements 0 pre ∧ total Leaf.bits pre' = total Leaf.bits pre ∧
          Fewest (total Leaf.bits pre) ws vs := by
  refine ⟨settles_settle (merge?_coalescePadding f), placements_coalescePadding f,
    bits_coalescePadding f, unspanned_coalescePadding h, ?_⟩
  intro pre ws post hrun
  obtain ⟨vs, post', hrun', hfewest⟩ := hrun.exists_fewest h
  rw [leaves_coalescePadding]
  exact ⟨_, vs, post', hrun', placements_gather 0 pre, total_gather 0 pre, hfewest⟩

theorem coalescePadding_optimal_sample :
    Unspanned 0 Sample.padded.leaves ∧
      (∃ n ≤ Sample.padded.leaves.length,
        Settles merge? n Sample.padded (coalescePadding Sample.padded)) ∧
      placements 0 (coalescePadding Sample.padded).2.leaves = placements 0 Sample.padded.leaves ∧
      (coalescePadding Sample.padded).2.bits = Sample.padded.bits ∧
      Unspanned 0 (coalescePadding Sample.padded).2.leaves ∧
      ∀ pre ws post, PaddingRun Sample.padded.leaves pre ws post →
        ∃ pre' vs post', PaddingRun (coalescePadding Sample.padded).2.leaves pre' vs post' ∧
          placements 0 pre' = placements 0 pre ∧ total Leaf.bits pre' = total Leaf.bits pre ∧
          Fewest (total Leaf.bits pre) ws vs :=
  have hunspanned : Unspanned 0 Sample.padded.leaves :=
    ⟨rfl, rfl, rfl, rfl, rfl, trivial⟩
  ⟨hunspanned, coalescePadding_optimal hunspanned⟩

end Layout

end ReportDescriptor
