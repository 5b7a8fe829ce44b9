import ReportDescriptor.Proofs.Forest.Filter
import ReportDescriptor.Proofs.Layout.Fields
import ReportDescriptor.Proofs.Sample

/-!
# What layout leaves alone

Without their paddings, the forests before and after layout differ in the widths of fields only,
and no width shrinks; nor does the padding between two fields. Each pass changes one leaf after
another, so it is enough to look at one such change.
-/

namespace ReportDescriptor

/-- The same field with the width it had or a greater one. -/
def Leaf.Widened (l m : Leaf) : Prop :=
  ∃ w : BitWidth, l.size.requested.bits ≤ w.bits ∧ m = l.withRequested w

namespace Leaf.Widened

theorem refl (l : Leaf) : l.Widened l :=
  ⟨l.size.requested, Nat.le_refl _, l.withRequested_requested.symm⟩

theorem trans {l m n : Leaf} (hlm : l.Widened m) (hmn : m.Widened n) : l.Widened n := by
  obtain ⟨w, hw, rfl⟩ := hlm
  obtain ⟨x, hx, rfl⟩ := hmn
  rw [Leaf.size_withRequested] at hx
  refine ⟨x, Nat.le_trans hw hx, ?_⟩
  cases l <;> rfl

end Leaf.Widened

def FieldForest.withoutPadding (f : FieldForest) : FieldForest :=
  Forest.filter (fun l => !l.isPadding) f

namespace Layout

/-- The same collections with the same fields, none of which has become narrower. -/
def FieldsLe (f g : FieldForest) : Prop :=
  Forest.Forall₂ Leaf.Widened f.withoutPadding g.withoutPadding

namespace FieldsLe

variable {f g h : FieldForest} {i : Nat} {l : Leaf} {pre post : List Leaf}

theorem refl (f : FieldForest) : FieldsLe f f :=
  Forest.Forall₂.refl Leaf.Widened.refl _

theorem trans (hfg : FieldsLe f g) (hgh : FieldsLe g h) : FieldsLe f h :=
  Forest.Forall₂.trans (fun _ _ _ => Leaf.Widened.trans) hfg hgh

theorem splice {out : Leaf → List Leaf}
    (h : ∀ l, f.leaves[i]? = some l → List.Forall₂ Leaf.Widened
      ([l].filter fun l => !l.isPadding) ((out l).filter fun l => !l.isPadding)) :
    FieldsLe f (f.splice out i) :=
  Forest.forall₂_filter_splice Leaf.Widened.refl h

theorem grow {w : BitWidth}
    (hw : ∀ l, f.leaves[i]? = some l → l.isPadding = false → l.size.requested.bits ≤ w.bits) :
    FieldsLe f (f.splice (fun l => [l.withRequested w]) i) := by
  refine splice fun l hl => ?_
  rw [List.filter_singleton, List.filter_singleton, Leaf.isPadding_withRequested]
  cases hpad : l.isPadding with
  | true => exact .nil
  | false => exact .cons ⟨w, hw l hl hpad, rfl⟩ .nil

theorem insertPadding (f : FieldForest) (w : BitWidth) (i : Nat) :
    FieldsLe f (Edit.apply f (.insertPadding w i)) := by
  rw [Edit.apply]
  exact splice fun l _ => List.forall₂_same.2 fun m _ => Leaf.Widened.refl m

theorem appendPadding (f : FieldForest) (w : BitWidth) (total : UInt32) :
    FieldsLe f (Edit.apply f (.appendPadding w total)) := by
  have hfields : FieldForest.withoutPadding (Edit.apply f (.appendPadding w total)) =
      f.withoutPadding := by
    rw [Edit.apply, FieldForest.withoutPadding, Forest.filter_append]
    exact Forest.append_nil _
  rw [FieldsLe, hfields]
  exact refl f

theorem drop (h : ∀ l, f.leaves[i]? = some l → l.isPadding = true) :
    FieldsLe f (f.splice (fun _ => []) i) := by
  refine splice fun l hl => ?_
  rw [List.filter_singleton, h l hl]
  exact .nil

/-- Two paddings are merged by growing the one and dropping the other. -/
theorem mergePadding {u v : BitWidth} (w : BitWidth)
    (h : f.leaves = pre ++ .padding u :: .padding v :: post) :
    FieldsLe f (Edit.apply f (.mergePadding pre.length w)) := by
  have hfirst := Forest.getElem?_leaves_of_append h
  have hsecond := Forest.getElem?_leaves_of_append
    (Forest.leaves_splice_of_append (fun l => [l.withRequested w]) h)
  rw [List.length_append, List.length_singleton] at hsecond
  rw [Edit.apply_mergePadding h]
  refine (grow fun l hl hpad => ?_).trans (drop fun l hl => ?_)
  · obtain rfl := Option.some.inj (hfirst.symm.trans hl)
    cases hpad
  · obtain rfl := Option.some.inj (hsecond.symm.trans hl)
    rfl

/-- A field is moved by growing it and then putting padding before it. -/
theorem relocate (hl : f.leaves[i]? = some l) {w : BitWidth}
    (hw : l.size.requested.bits ≤ w.bits) (pad : Fin 8) :
    FieldsLe f (Edit.applyAll f
      ((if l.size.requested = w then [] else [.grow i l.size.requested w]) ++
        if h : 1 ≤ pad.val then [.insertPadding ⟨pad, h, by omega⟩ i] else [])) := by
  have hgrown : FieldsLe f (Edit.applyAll f
      (if l.size.requested = w then [] else [.grow i l.size.requested w])) := by
    by_cases h : l.size.requested = w
    · rw [if_pos h]
      exact refl f
    · rw [if_neg h]
      refine grow fun m hm _ => ?_
      obtain rfl := Option.some.inj (hl.symm.trans hm)
      exact hw
  rw [Edit.applyAll_append]
  refine hgrown.trans ?_
  by_cases h : 1 ≤ pad.val
  · rw [dif_pos h]
    exact insertPadding _ _ i
  · rw [dif_neg h]
    exact refl _

end FieldsLe

/-- The bits of padding before the first field that is none, between such fields, and after the
last. -/
def gaps : List Leaf → List Nat
  | [] => [0]
  | l :: ls => if l.isPadding then (gaps ls).modifyHead (l.bits + ·) else 0 :: gaps ls

/-- As many gaps, none of them smaller. -/
def GapsLe (as bs : List Leaf) : Prop :=
  List.Forall₂ (· ≤ ·) (gaps as) (gaps bs)

theorem forall₂_le_refl (ns : List Nat) : List.Forall₂ (· ≤ ·) ns ns :=
  List.forall₂_same.2 fun _ _ => Nat.le_refl _

theorem forall₂_le_trans {ks ms ns : List Nat} (hkm : List.Forall₂ (· ≤ ·) ks ms)
    (hmn : List.Forall₂ (· ≤ ·) ms ns) : List.Forall₂ (· ≤ ·) ks ns := by
  induction hkm generalizing ns with
  | nil => exact hmn
  | cons hle _ ih =>
    cases hmn with
    | cons hle' hmn => exact .cons (Nat.le_trans hle hle') (ih hmn)

theorem forall₂_le_modifyHead {ms ns : List Nat} {a b : Nat} (hab : a ≤ b)
    (h : List.Forall₂ (· ≤ ·) ms ns) :
    List.Forall₂ (· ≤ ·) (ms.modifyHead (a + ·)) (ns.modifyHead (b + ·)) := by
  cases h with
  | nil => exact .nil
  | cons hle h => exact .cons (Nat.add_le_add hab hle) h

namespace GapsLe

variable {as bs cs : List Leaf} {l m : Leaf}

theorem refl (as : List Leaf) : GapsLe as as :=
  forall₂_le_refl (gaps as)

theorem trans (hab : GapsLe as bs) (hbc : GapsLe bs cs) : GapsLe as cs :=
  forall₂_le_trans hab hbc

/-- Before equal rests stand two fields of the same sort, of which the second is no shorter if
they are paddings. -/
theorem cons (hsort : l.isPadding = m.isPadding) (hbits : l.isPadding = true → l.bits ≤ m.bits)
    (h : GapsLe as bs) : GapsLe (l :: as) (m :: bs) := by
  rw [GapsLe, gaps, gaps, ← hsort]
  cases hpad : l.isPadding with
  | true => exact forall₂_le_modifyHead (hbits hpad) h
  | false => exact .cons (Nat.le_refl 0) h

theorem append (pre : List Leaf) (h : GapsLe as bs) : GapsLe (pre ++ as) (pre ++ bs) := by
  induction pre with
  | nil => exact h
  | cons l pre ih => exact cons rfl (fun _ => Nat.le_refl _) ih

theorem cons_padding (w : BitWidth) (as : List Leaf) : GapsLe as (.padding w :: as) := by
  rw [GapsLe, gaps]
  change List.Forall₂ _ (gaps as) ((gaps as).modifyHead _)
  cases gaps as with
  | nil => exact .nil
  | cons n ns => exact .cons (Nat.le_add_left _ _) (forall₂_le_refl ns)

theorem padBefore (pad : Fin 8) (as : List Leaf) : GapsLe as (padBefore pad ++ as) := by
  rw [Layout.padBefore]
  split
  · exact cons_padding _ as
  · exact refl as

theorem withRequested {w : BitWidth} (hw : l.size.requested.bits ≤ w.bits) (as : List Leaf) :
    GapsLe (l :: as) (l.withRequested w :: as) := by
  refine cons (l.isPadding_withRequested w).symm (fun hpad => ?_) (refl as)
  cases l with
  | padding v => rwa [Leaf.withRequested, Leaf.bits_padding, Leaf.bits_padding]
  | single v => cases hpad
  | range v => cases hpad
  | array s => cases hpad

/-- A merger moves no bit of padding to another gap. -/
theorem merge {u v w : BitWidth} (hw : w.bits = u.bits + v.bits) (as : List Leaf) :
    GapsLe (.padding u :: .padding v :: as) (.padding w :: as) := by
  have hgaps : gaps (.padding u :: .padding v :: as) = gaps (.padding w :: as) := by
    change ((gaps as).modifyHead _).modifyHead _ = (gaps as).modifyHead _
    rw [List.modifyHead_modifyHead]
    congr 1
    funext n
    simp only [Function.comp, Leaf.bits_padding, hw]
    omega
  rw [GapsLe, hgaps]
  exact refl _

end GapsLe

/-- Fields and collections stay where they are, and neither fields nor gaps shrink. -/
structure Frame (f g : FieldForest) : Prop where
  fields : FieldsLe f g
  gaps : GapsLe f.leaves g.leaves

theorem Frame.refl (f : FieldForest) : Frame f f :=
  ⟨.refl f, .refl _⟩

theorem Frame.trans {f g h : FieldForest} (hfg : Frame f g) (hgh : Frame g h) : Frame f h :=
  ⟨hfg.fields.trans hgh.fields, hfg.gaps.trans hgh.gaps⟩

variable {f g : FieldForest} {records : List LogRecord}

theorem frame_of_relocate? (h : relocate? f = some (records, g)) : Frame f g := by
  obtain ⟨pre, l, post, w, pad, _, hleaves, -, -, hfit, rfl, -, rfl⟩ := of_relocate? h
  have hw := (Relocation.of_fitting? hfit).1
  refine ⟨.relocate (Forest.getElem?_leaves_of_append hleaves) hw pad, ?_⟩
  have hpadded := Edit.leaves_padding (Edit.leaves_growth hleaves w) pad
  rw [Edit.applyAll_append, hpadded, hleaves, List.append_assoc]
  exact .append pre ((GapsLe.withRequested hw post).trans (.padBefore pad _))

theorem frame_correctOverspans (f : FieldForest) : Frame f (correctOverspans f).2 :=
  settle_induction (P := Frame f) (fun _ _ _ hg h => hg.trans (frame_of_relocate? h)) _ (.refl f)

theorem frame_alignToByte (f : FieldForest) : Frame f (alignToByte f).2 := by
  by_cases h : f.bits % 8 = 0
  · rw [alignToByte, dif_pos h]
    exact .refl f
  · obtain ⟨w, -, hleaves⟩ := leaves_alignToByte f h
    constructor
    · rw [alignToByte, dif_neg h]
      exact .appendPadding f _ (UInt32.ofNat (f.bits + (8 - f.bits % 8)))
    · rw [hleaves]
      have happend := GapsLe.append f.leaves (GapsLe.cons_padding w [])
      rwa [List.append_nil] at happend

theorem frame_of_merge? (h : merge? f = some (records, g)) : Frame f g := by
  obtain ⟨pre, u, v, post, w, hleaves, hbits, -, -, rfl⟩ := of_merge? h
  refine ⟨.mergePadding w hleaves, ?_⟩
  rw [Edit.leaves_mergePadding hleaves, hleaves]
  exact .append pre (.merge hbits post)

theorem frame_coalescePadding (f : FieldForest) : Frame f (coalescePadding f).2 :=
  settle_induction (P := Frame f) (fun _ _ _ hg h => hg.trans (frame_of_merge? h)) _ (.refl f)

theorem frame_layout (f : FieldForest) : Frame f (layout f).2 :=
  (frame_correctOverspans f).trans ((frame_alignToByte _).trans (frame_coalescePadding _))

end Layout

/-- Every collection has a field that is not padding. -/
def FieldForest.Populated (f : FieldForest) : Prop :=
  ∀ n ∈ f.nodes, ∃ l ∈ n.2.leaves, l.isPadding = false

theorem FieldForest.populated_iff {f : FieldForest} :
    f.Populated ↔ ∀ n ∈ f.withoutPadding.nodes, n.2.leaves ≠ [] := by
  rw [Populated, withoutPadding, Forest.nodes_filter, List.forall_mem_map]
  refine forall₂_congr fun n _ => ?_
  rw [Forest.leaves_filter, ne_eq, List.filter_eq_nil_iff]
  simp

/-- No collection loses its last field. -/
theorem Layout.Frame.populated {f g : FieldForest} (h : Frame f g) (hf : f.Populated) :
    g.Populated :=
  FieldForest.populated_iff.2
    (h.fields.forall_nodes_leaves_ne_nil (FieldForest.populated_iff.1 hf))

namespace Report

open Layout

/-- Layout touches nothing but paddings and widths, and collections remain such as can be built. -/
theorem frame_of_build {kind : ReportKind} {id : UInt8} {children : FieldForest} {r : Report}
    (h : (build kind id children).result = .ok r) :
    Frame children r.children ∧
      ((∀ n ∈ children.nodes, ∃ t, n.1.build n.2 = .ok t) →
        ∀ n ∈ r.children.nodes, (∃ l ∈ n.2.leaves, l.isPadding = false) ∧
          n.1.build n.2 = .ok (.node n.1 n.2 .nil)) := by
  obtain ⟨-, -, -, -, rfl⟩ := build_eq_ok_iff.1 h
  have hframe := frame_layout children
  refine ⟨hframe, fun hbuilt n hn => ?_⟩
  have hpopulated : children.Populated := by
    intro m hm
    obtain ⟨t, ht⟩ := hbuilt m hm
    exact (Collection.build_eq_ok_iff.1 ht).1
  have hdata := hframe.populated hpopulated n hn
  exact ⟨hdata, Collection.build_eq_ok_iff.2 ⟨hdata, rfl⟩⟩

theorem frame_sample :
    (build .input 1 (Sample.fields .input)).result = .ok (Sample.report .input 1) ∧
      (∀ n ∈ (Sample.fields .input).nodes, ∃ t, n.1.build n.2 = .ok t) ∧
      Frame (Sample.fields .input) (Sample.report .input 1).children ∧
      ∀ n ∈ (Sample.report .input 1).children.nodes, (∃ l ∈ n.2.leaves, l.isPadding = false) ∧
        n.1.build n.2 = .ok (.node n.1 n.2 .nil) := by
  have hbuild := Sample.report_of_build .input (by decide : (1 : UInt8) ≠ 0)
  have hbuilt : ∀ n ∈ (Sample.fields .input).nodes, ∃ t, n.1.build n.2 = .ok t :=
    List.forall_mem_singleton.2 ⟨_, rfl⟩
  exact ⟨hbuild, hbuilt, (frame_of_build hbuild).1, (frame_of_build hbuild).2 hbuilt⟩

end Report

end ReportDescriptor
