import Mathlib.Data.List.Forall2
import ReportDescriptor.Proofs.Constructible
import ReportDescriptor.Proofs.Emission.Bytes
import ReportDescriptor.Proofs.Emission.Emitter

/-!
# Elements one after another

Only a field that stands in no report stops the emitter, and there is such a field in each leaf and
each collection that stands alone. Without elision, what comes of an element does not depend on
those before it.
-/

namespace ReportDescriptor

namespace Emission

theorem strayField_mem_leafEvents (l : Leaf) : .strayField ∈ leafEvents none l := by
  cases l with
  | padding w => exact List.mem_append_right [_, _] (List.mem_singleton.2 rfl)
  | _ => exact List.mem_append_right _ (List.mem_singleton.2 rfl)

theorem strayField_mem_runEvents (q : Run) : .strayField ∈ q.events none := by
  rw [Run.events]
  split
  · exact strayField_mem_leafEvents _
  · exact List.mem_cons_of_mem _ (List.mem_append_right _ (List.mem_singleton.2 rfl))

/-- Where there is no report, it takes one field to go astray. -/
theorem strayField_mem_siblingEvents (optimize : Bool) (run : Option Run) (f : FieldForest)
    (h : run ≠ none ∨ f.leaves ≠ []) : .strayField ∈ siblingEvents optimize none run f := by
  fun_induction siblingEvents optimize none run f with
  | case1 run =>
    cases run with
    | none => simp at h
    | some q => exact strayField_mem_runEvents q
  | case2 v rest h ih => exact ih (.inl (Option.some_ne_none _))
  | case3 v rest h ih => exact List.mem_append_left _ (strayField_mem_leafEvents _)
  | case4 v rest q h ih => exact ih (.inl (Option.some_ne_none _))
  | case5 v rest q h ih => exact List.mem_append_left _ (strayField_mem_runEvents q)
  | case6 run l rest h ih =>
    exact List.mem_append_left _ (List.mem_append_right _ (strayField_mem_leafEvents l))
  | case7 run c children rest ihc ihr =>
    rw [Forest.leaves_node, Ne, Ne, List.append_eq_nil_iff] at h
    simp only [List.mem_append]
    cases run with
    | some q => exact .inl (.inl (.inl (.inl (strayField_mem_runEvents q))))
    | none =>
      by_cases hchildren : children.leaves = []
      · exact .inr (ihr (.inr fun hrest => by simp [hchildren, hrest] at h))
      · exact .inl (.inl (.inr (ihc (.inr hchildren))))

end Emission

namespace Element

open Emission

/-- Not in a report. -/
def IsBare : Element → Prop
  | leaf _ | collection _ _ => True
  | report _ | application _ => False

/-- A collection is such as can be built. Those of a report that has been laid out still are. -/
def Accepted : Element → Prop
  | collection c inner => ∃ t, c.build inner = .ok t
  | _ => True

theorem strayField_mem_events_iff {x : Element} (hx : x.Accepted) (optimize : Bool) :
    .strayField ∈ x.events optimize ↔ x.IsBare := by
  cases x with
  | leaf l => exact iff_of_true (strayField_mem_leafEvents l) trivial
  | collection c inner =>
    obtain ⟨t, ht⟩ := hx
    obtain ⟨⟨l, hl, -⟩, -⟩ := Collection.build_eq_ok_iff.1 ht
    have hstray := strayField_mem_siblingEvents optimize none inner
      (.inr (List.ne_nil_of_mem hl))
    exact iff_of_true (List.mem_append_left _ (List.mem_append_right _ hstray)) trivial
  | report r =>
    exact iff_of_false (written_reportEvents optimize (List.mem_singleton_self r) .strayField) id
  | application a =>
    exact iff_of_false (written_applicationEvents optimize (fun _ => id) .strayField) id

end Element

/-- Every length of data there is has a code. -/
theorem ShortItem.encode_eq (i : ShortItem) : i.encode = .ok i.toBytes := by
  rw [encode, toBytes]
  obtain h | h | h | h := i.length_dataBytes <;> rw [h] <;> rfl

theorem ShortItem.mapM_encode (is : List ShortItem) : is.mapM encode = .ok (is.map toBytes) := by
  rw [funext encode_eq]
  exact List.mapM_pure

namespace Emission

theorem strayField_mem_flatMap_iff {xs : List Element} (h : ∀ x ∈ xs, x.Accepted)
    (optimize : Bool) :
    .strayField ∈ xs.flatMap (Element.events optimize) ↔ ∃ x ∈ xs, x.IsBare := by
  rw [List.mem_flatMap]
  exact exists_congr fun x => and_congr_right fun hx =>
    Element.strayField_mem_events_iff (h x hx) optimize

end Emission

namespace Emitter

open Emission

theorem result_run_eq_error_iff {options : Options} {xs : List Element} :
    (run options xs).result = .error .fieldOutsideReport ↔
      .strayField ∈ xs.flatMap (Element.events options.optimize) := by
  rw [run_eq_emit, result_emit, Emission.items]
  by_cases hstray : .strayField ∈ xs.flatMap (Element.events options.optimize)
  · rw [if_pos hstray]
    exact iff_of_true rfl hstray
  · rw [if_neg hstray]
    refine iff_of_false (fun h => ?_) hstray
    cases h

theorem exists_writeAll {options : Options} {xs : List Element}
    (h : .strayField ∉ xs.flatMap (Element.events options.optimize)) :
    ∃ e, ((ofOptions options).writeAll xs).result = .ok e ∧ e.report = none ∧
      (run options xs).result = .ok e.items ∧
      (options.elide = false →
        e.items = itemsOf (xs.flatMap (Element.events options.optimize))) := by
  obtain ⟨e, he, hplace, hitems⟩ := exists_performAll (ofOptions options) h
  have hwrite : ((ofOptions options).writeAll xs).result = .ok e := by
    rw [writeAll_eq rfl]
    exact he
  refine ⟨e, hwrite, hplace.report, ?_, fun helide => ?_⟩
  · rw [run, Logged.result_map, hwrite]
    rfl
  · rw [hitems, keep, ofOptions, helide]
    rfl

/-- The emitter fails only for a leaf or a collection that stands alone, wherever that is. If there
is none, it ends outside of every report, and without elision its items are those of each element
alone, in order. Descriptors have neither, so all of them can be written, and their bytes too. -/
theorem run_compositional (options : Options) :
    (∀ xs : List Element, (∀ x ∈ xs, x.Accepted) →
      ((run options xs).result = .error .fieldOutsideReport ↔ ∃ x ∈ xs, x.IsBare) ∧
      ((∀ x ∈ xs, ¬ x.IsBare) → ∃ e, ((ofOptions options).writeAll xs).result = .ok e ∧
        e.report = none ∧ (run options xs).result = .ok e.items ∧
        (options.elide = false → ∃ alone,
          List.Forall₂ (fun x is => (run options [x]).result = .ok is) xs alone ∧
            e.items = alone.flatten))) ∧
    (∀ e r, ∃ e', (writeReport e r).result = .ok e' ∧ e'.report = none) ∧
    (∀ xs, run options xs = Emission.emit options xs) ∧
    ∀ d : Descriptor, ∃ items bytes, (run options d.elements).result = .ok items ∧
      (d.items options).result = .ok items ∧ items.mapM ShortItem.encode = .ok bytes ∧
      (d.toBytes options).result = .ok bytes.flatten := by
  refine ⟨fun xs haccepted => ⟨?_, fun hbare => ?_⟩, fun e r => ?_, run_eq_emit options,
    fun d => ?_⟩
  · rw [result_run_eq_error_iff, strayField_mem_flatMap_iff haccepted]
  · have hstray {ys : List Element} (hys : ∀ x ∈ ys, x ∈ xs) :
        .strayField ∉ ys.flatMap (Element.events options.optimize) := by
      rw [strayField_mem_flatMap_iff fun x hx => haccepted x (hys x hx)]
      rintro ⟨x, hx, hxbare⟩
      exact hbare x (hys x hx) hxbare
    obtain ⟨e, he, hreport, hrun, hitems⟩ := exists_writeAll (hstray fun _ => id)
    refine ⟨e, he, hreport, hrun, fun helide =>
      ⟨xs.map fun x => itemsOf (x.events options.optimize), ?_, ?_⟩⟩
    · rw [List.forall₂_map_right_iff, List.forall₂_same]
      intro x hx
      have hone : .strayField ∉ [x].flatMap (Element.events options.optimize) :=
        hstray (List.forall_mem_singleton.2 hx)
      obtain ⟨e, -, -, hrun, hitems⟩ := exists_writeAll hone
      rw [hrun, hitems helide, List.flatMap_singleton]
    · rw [hitems helide, itemsOf_flatMap, List.flatMap_def]
  · rw [writeReport_eq]
    obtain ⟨e', he', hplace, -⟩ := exists_performAll (e.inReport none) fun h =>
      written_reportEvents e.optimize (List.mem_singleton_self r) _ h
    exact ⟨e', he', hplace.report⟩
  · have hitems := d.result_items options
    refine ⟨_, _, ?_, hitems, ShortItem.mapM_encode _, ?_⟩
    · rw [run_eq_emit]
      exact hitems
    · rw [Descriptor.result_toBytes hitems, List.flatMap_def]

/-- A field that comes after a report is still astray, even in a collection; two reports are written
as they are alone. -/
theorem run_compositional_keypad :
    (run {} [.report Sample.keypadReport, .leaf Sample.keys]).result =
        .error .fieldOutsideReport ∧
      (run {} [.report Sample.keypadReport,
        .collection ⟨.physical, ⟨1, 1⟩, []⟩ (.leaf (.single Sample.byteAxis) .nil)]).result =
        .error .fieldOutsideReport ∧
      ∃ first second,
        (run {} [.report Sample.keypadReport]).result = .ok first ∧
        (run {} [.report (Sample.report .input 2)]).result = .ok second ∧
        (run {} [.report Sample.keypadReport, .report (Sample.report .input 2)]).result =
          .ok (first ++ second) := by
  obtain ⟨hrun, -⟩ := run_compositional {}
  obtain ⟨hleaf, -⟩ := hrun [.report Sample.keypadReport, .leaf Sample.keys] (by
    simp [Element.Accepted])
  obtain ⟨hcollection, -⟩ := hrun [.report Sample.keypadReport,
    .collection ⟨.physical, ⟨1, 1⟩, []⟩ (.leaf (.single Sample.byteAxis) .nil)] (by
      simp only [List.forall_mem_cons]
      exact ⟨trivial, ⟨_, rfl⟩, List.forall_mem_nil _⟩)
  obtain ⟨-, hreports⟩ := hrun [.report Sample.keypadReport, .report (Sample.report .input 2)] (by
    simp [Element.Accepted])
  obtain ⟨e, -, -, hboth, halone⟩ := hreports (by simp [Element.IsBare])
  obtain ⟨alone, hforall, hitems⟩ := halone rfl
  have hsecond {x y : Element} : y ∈ [x, y] := List.mem_cons_of_mem x (List.mem_singleton_self y)
  refine ⟨hleaf.2 ⟨_, hsecond, trivial⟩, hcollection.2 ⟨_, hsecond, trivial⟩, ?_⟩
  cases hforall with
  | cons hfirst hrest =>
    cases hrest with
    | cons hlater hnil =>
      cases hnil
      refine ⟨_, _, hfirst, hlater, ?_⟩
      rw [hboth, hitems]
      simp

end Emitter

end ReportDescriptor
