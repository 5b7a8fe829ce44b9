import ReportDescriptor.Proofs.Emission.Nesting
import ReportDescriptor.Proofs.Item.Text

/-!
# Listings are faithful

A listing has a line for each item. The first columns of the lines are the bytes of the descriptor,
and the rest of a line is the text of its item, indented by the collections around it. The depth
that a listing keeps track of is the number of these collections, because the items nest.
-/

namespace ReportDescriptor

namespace ShortItem

theorem lines_cons (depth : Nat) (i : ShortItem) (is : List ShortItem) :
    lines depth (i :: is) = i.line (i.depthAt depth) :: lines (i.depthPast depth) is := rfl

theorem lines_append (depth : Nat) (is js : List ShortItem) :
    lines depth (is ++ js) = lines depth is ++ lines (depthAfter depth is) js := by
  induction is generalizing depth with
  | nil => rfl
  | cons i is ih =>
    rw [List.cons_append, lines_cons, lines_cons, ih, depthAfter_cons, List.cons_append]

@[simp] theorem length_lines (depth : Nat) (is : List ShortItem) :
    (lines depth is).length = is.length := by
  induction is generalizing depth with
  | nil => rfl
  | cons i is ih => rw [lines_cons, List.length_cons, List.length_cons, ih]

theorem getElem?_lines (pre post : List ShortItem) (i : ShortItem) :
    (lines 0 (pre ++ i :: post))[pre.length]? = some (i.line (i.depthAt (depthAfter 0 pre))) := by
  rw [lines_append, List.getElem?_append_right (by rw [length_lines]), length_lines, Nat.sub_self,
    lines_cons, List.getElem?_cons_zero]

example : lines 0 [.ofNat .collection 1, .ofNat .reportId 1, .empty .endCollection] =
    ["a1 01           Collection (Application)", "85 01             Report ID (1)",
      "c0              End Collection"] := by
  decide +kernel

/-- The first columns of a line, without the blanks. -/
def column (line : String) : List Char :=
  (line.toList.take 15).filter (· ≠ ' ')

theorem column_line (i : ShortItem) (depth : Nat) : column (i.line depth) = Hex.pairs i.toBytes :=
  take_line i depth

theorem flatMap_column_lines (depth : Nat) (is : List ShortItem) :
    (lines depth is).flatMap column = Hex.pairs (is.flatMap toBytes) := by
  induction is generalizing depth with
  | nil => rfl
  | cons i is ih =>
    rw [lines_cons, List.flatMap_cons, List.flatMap_cons, column_line, ih, Hex.pairs, Hex.pairs,
      Hex.pairs, List.flatMap_append]

theorem newline_notMem_lines (depth : Nat) (is : List ShortItem) :
    ∀ line ∈ lines depth is, '\n' ∉ line.toList := by
  induction is generalizing depth with
  | nil => exact List.forall_mem_nil _
  | cons i is ih =>
    rw [lines_cons, List.forall_mem_cons]
    exact ⟨newline_notMem_line i _, ih _⟩

end ShortItem

open ShortItem

/-- What can be read from the lines of a listing. Items are named by what stands before and after
them; the collections that are open at an item are those that have begun before it, less those
that have ended before it or end with it. -/
structure Listing (items : List ShortItem) (bytes : List UInt8) (lines : List String) : Prop where
  length_eq : lines.length = items.length
  /-- The lines are those of the text that is printed. -/
  parts_eq : items ≠ [] → parts '\n' ("\n".intercalate lines) = lines
  line_eq : ∀ pre i post, items = pre ++ i :: post → ∃ line, lines[pre.length]? = some line ∧
    column line = Hex.pairs i.toBytes ∧
    line.toList.drop 15 =
      ' ' :: (List.replicate (2 * (begun pre - ended (pre ++ [i]))) ' ' ++ i.text.toList)
  bytes_eq : Hex.read? (lines.flatMap column) = some bytes
  /-- The counter of the lines is the one that the items balance. -/
  counter_eq : ∀ pre post, items = pre ++ post →
    lines = ShortItem.lines 0 pre ++ ShortItem.lines (depthAfter 0 pre) post

namespace Descriptor

theorem Balanced.depthAt_eq {d : Descriptor} {o : Options} {items pre post : List ShortItem}
    {i : ShortItem} (h : d.Balanced o items) (hsplit : items = pre ++ i :: post) :
    i.depthAt (depthAfter 0 pre) = begun pre - ended (pre ++ [i]) := by
  have hcount := h.counter_eq pre (i :: post) hsplit
  rw [ended_concat, depthAt]
  split <;> omega

theorem listing_lines {d : Descriptor} {o : Options} {items : List ShortItem}
    (h : d.Balanced o items) :
    Listing items (items.flatMap ShortItem.toBytes) (ShortItem.lines 0 items) where
  length_eq := length_lines 0 items
  parts_eq hne := by
    refine parts_intercalate (newline_notMem_lines 0 items) fun hnil => hne ?_
    rw [← List.length_eq_zero_iff, length_lines] at hnil
    exact List.length_eq_zero_iff.1 hnil
  line_eq pre i post hsplit := by
    refine ⟨i.line (i.depthAt (depthAfter 0 pre)), ?_, column_line i _, ?_⟩
    · rw [hsplit, getElem?_lines]
    · rw [drop_line, h.depthAt_eq hsplit]
  bytes_eq := by rw [flatMap_column_lines, Hex.read?_pairs]
  counter_eq pre post hsplit := by rw [hsplit, lines_append]

/-- A listing shows exactly the items of a descriptor and their bytes, at the depths of
collections that begin and end in pairs. -/
theorem summary_faithful (d : Descriptor) (o : Options) :
    ∃ items bytes lines, (d.items o).result = .ok items ∧ (d.toBytes o).result = .ok bytes ∧
      (d.summary o).result = .ok lines ∧ Listing items bytes lines ∧ d.Balanced o items := by
  have hitems := d.result_items o
  have hbalanced := balanced_items hitems
  refine ⟨_, _, _, hitems, result_toBytes hitems, ?_, listing_lines hbalanced, hbalanced⟩
  rw [summary, Logged.result_map, hitems]
  rfl

end Descriptor

end ReportDescriptor
