import ReportDescriptor.Emission.Emitter
import ReportDescriptor.Proofs.Emission.Items
import ReportDescriptor.Proofs.Except

/-!
# What the emitter does

Every part of a tree has the emitter perform the events of that part, as they are in the report
that is being written, and leaves it in the same place. A report takes it out of every report. So
all the emitter does from one element to the next comes down to a list of events.
-/

namespace ReportDescriptor

namespace Emitter

open Emission

def perform (e : Emitter) : Event → Logged Emitter
  | .item i => e.push i
  | .combining count page => do
    Logged.write [.combining count page]
    return e
  | .strayField => Logged.ofExcept (.error .fieldOutsideReport)

def performAll (e : Emitter) (es : List Event) : Logged Emitter :=
  es.foldlM perform e

variable {e e' : Emitter}

theorem performAll_cons (e : Emitter) (ev : Event) (es : List Event) :
    e.performAll (ev :: es) = e.perform ev >>= (performAll · es) :=
  List.foldlM_cons

theorem performAll_append (e : Emitter) (es fs : List Event) :
    e.performAll (es ++ fs) = e.performAll es >>= (performAll · fs) :=
  List.foldlM_append

theorem performAll_singleton (e : Emitter) (ev : Event) : e.performAll [ev] = e.perform ev := by
  rw [performAll_cons]
  exact bind_pure _

/-- Neither the report that is being written nor the way of writing it is another. -/
structure InPlace (e e' : Emitter) : Prop where
  optimize : e'.optimize = e.optimize
  report : e'.report = e.report

theorem InPlace.refl (e : Emitter) : e.InPlace e :=
  ⟨rfl, rfl⟩

theorem InPlace.trans {e'' : Emitter} (h : e.InPlace e') (h' : e'.InPlace e'') : e.InPlace e'' :=
  ⟨h'.optimize.trans h.optimize, h'.report.trans h.report⟩

theorem inPlace_push {i : ShortItem} (h : (e.push i).result = .ok e') : e.InPlace e' := by
  unfold push at h
  split at h
  · obtain rfl := Except.ok.inj h
    exact ⟨rfl, rfl⟩
  · split at h
    · obtain rfl := Except.ok.inj h
      exact .refl e
    · obtain rfl := Except.ok.inj h
      exact ⟨rfl, rfl⟩

theorem inPlace_perform {ev : Event} (h : (e.perform ev).result = .ok e') : e.InPlace e' := by
  cases ev with
  | item i => exact inPlace_push h
  | combining count page =>
    obtain rfl := Except.ok.inj h
    exact .refl e
  | strayField => cases h

theorem inPlace_performAll {es : List Event} (h : (e.performAll es).result = .ok e') :
    e.InPlace e' := by
  induction es generalizing e with
  | nil =>
    obtain rfl := Except.ok.inj h
    exact .refl e
  | cons ev es ih =>
    rw [performAll_cons, Logged.result_bind, bind_eq_ok_iff] at h
    obtain ⟨e₁, h₁, h⟩ := h
    exact (inPlace_perform h₁).trans (ih h)

/-- What comes after some events goes on in the same place. -/
theorem performAll_bind {es fs : List Event} {g : Emitter → Logged Emitter}
    (h : ∀ e', e.InPlace e' → g e' = e'.performAll fs) :
    e.performAll es >>= g = e.performAll (es ++ fs) := by
  rw [performAll_append]
  exact Logged.bind_congr fun e' he' => h e' (inPlace_performAll he')

theorem pushAll_eq (e : Emitter) (is : List ShortItem) :
    e.pushAll is = e.performAll (is.map .item) := by
  rw [pushAll, performAll, List.foldlM_map]
  rfl

theorem mainItem_eq (e : Emitter) (word : Nat) :
    e.mainItem word = e.performAll [.main e.report word] := by
  rw [performAll_singleton, mainItem]
  cases e.report <;> rfl

theorem pushAll_mainItem_eq (e : Emitter) (is : List ShortItem) (word : Nat) :
    e.pushAll is >>= (mainItem · word) = e.performAll (is.map .item ++ [.main e.report word]) := by
  rw [pushAll_eq]
  refine performAll_bind fun e' he' => ?_
  rw [mainItem_eq, he'.report]

theorem writeData_eq (e : Emitter) (usages : List ShortItem) (f : DataField) (count : Nat)
    (grouping : Grouping) :
    e.writeData usages f count grouping =
      e.performAll (dataEvents e.report usages f count grouping) :=
  pushAll_mainItem_eq e _ _

theorem writeLeaf_eq (e : Emitter) (l : Leaf) :
    e.writeLeaf l = e.performAll (leafEvents e.report l) := by
  cases l with
  | padding w => exact pushAll_mainItem_eq e _ _
  | _ => exact writeData_eq e _ _ _ _

theorem openCollection_eq (e : Emitter) (usage : DocumentedUsage) (type : CollectionType) :
    e.openCollection usage type = e.performAll (Emission.openCollection usage type) :=
  pushAll_eq e _

theorem closeCollection_eq (e : Emitter) :
    e.closeCollection = e.performAll Emission.closeCollection :=
  (performAll_singleton e (.item (.empty .endCollection))).symm

/-- The variables held back are the members of the run. -/
def heldBack (run : Option Run) : List Variable :=
  run.elim [] Run.members

theorem flush_eq (e : Emitter) (run : Option Run) :
    e.flush (heldBack run) = e.performAll (run.elim [] (Run.events e.report)) := by
  cases run with
  | none => rfl
  | some r =>
    obtain ⟨first, others⟩ := r
    cases hothers : others.reverse with
    | nil =>
      obtain rfl := List.reverse_eq_nil_iff.1 hothers
      exact writeLeaf_eq e (.single first)
    | cons second rest =>
      have hmembers : (Run.mk first others).members = first :: second :: rest :=
        congrArg (first :: ·) hothers
      have hne : others ≠ [] := fun h => by
        rw [h] at hothers
        cases hothers
      rw [heldBack, Option.elim_some, Option.elim_some, Run.events_of_others_ne_nil hne, hmembers,
        performAll_cons, perform, bind_assoc]
      simp only [pure_bind, ← writeData_eq]
      rfl

theorem heldBack_none : heldBack none = [] := rfl

theorem head?_heldBack (r : Run) : (heldBack (some r)).head? = some r.first := rfl

theorem heldBack_append (r : Run) (v : Variable) :
    heldBack (some r) ++ [v] = heldBack (some { r with others := v :: r.others }) := by
  rw [heldBack, heldBack, Option.elim_some, Option.elim_some, Run.members, Run.members,
    List.reverse_cons, List.cons_append]

/-- Variables are held back only where they may come to share a main item. -/
theorem writeChildren_eq {optimize : Bool} {report : Option ReportKind} (run : Option Run)
    (f : FieldForest) (hoptimize : e.optimize = optimize) (hreport : e.report = report)
    (hrun : run ≠ none → optimize = true) :
    e.writeChildren (heldBack run) f = e.performAll (siblingEvents optimize report run f) := by
  fun_induction siblingEvents optimize report run f generalizing e with
  | case1 run => exact hreport ▸ flush_eq e run
  | case2 v rest h ih =>
    rw [writeChildren, hoptimize, if_pos h]
    exact ih hoptimize hreport fun _ => h
  | case3 v rest h ih =>
    rw [writeChildren, hoptimize, if_neg h, heldBack_none, flush, pure_bind,
      writeLeaf_eq, hreport]
    exact performAll_bind fun e₁ h₁ =>
      ih (h₁.optimize.trans hoptimize) (h₁.report.trans hreport) (absurd rfl)
  | case4 v rest q h ih =>
    have hon := hrun (Option.some_ne_none q)
    rw [writeChildren, hoptimize, if_pos hon, head?_heldBack, Option.any_some, if_pos h,
      heldBack_append]
    exact ih hoptimize hreport fun _ => hon
  | case5 v rest q h ih =>
    have hon := hrun (Option.some_ne_none q)
    rw [writeChildren, hoptimize, if_pos hon, head?_heldBack, Option.any_some, if_neg h, flush_eq,
      hreport]
    exact performAll_bind fun e₁ h₁ =>
      ih (h₁.optimize.trans hoptimize) (h₁.report.trans hreport) fun _ => hon
  | case6 run l rest h ih =>
    rw [writeChildren, flush_eq, hreport, List.append_assoc]
    · refine performAll_bind fun e₁ h₁ => ?_
      rw [writeLeaf_eq, h₁.report, hreport]
      refine performAll_bind fun e₂ h₂ => ?_
      have h₀ := h₁.trans h₂
      exact ih (h₀.optimize.trans hoptimize) (h₀.report.trans hreport) (absurd rfl)
    · exact h
  | case7 run c children rest ihc ihr =>
    -- Nothing is held back where a collection opens, nor where it closes.
    simp only [writeChildren, flush_eq, hreport, List.append_assoc]
    refine performAll_bind fun e₁ h₁ => ?_
    rw [openCollection_eq]
    refine performAll_bind fun e₂ h₂ => ?_
    have h₀ := h₁.trans h₂
    rw [← heldBack_none, ihc (h₀.optimize.trans hoptimize) (h₀.report.trans hreport) (absurd rfl)]
    refine performAll_bind fun e₃ h₃ => ?_
    rw [closeCollection_eq]
    refine performAll_bind fun e₄ h₄ => ?_
    have h₀ := (h₀.trans h₃).trans h₄
    exact ihr (h₀.optimize.trans hoptimize) (h₀.report.trans hreport) (absurd rfl)

/-- The same emitter where another report, or none, is being written. -/
def inReport (e : Emitter) (report : Option ReportKind) : Emitter :=
  { e with report }

theorem push_inReport (e : Emitter) (report : Option ReportKind) (i : ShortItem) :
    (e.inReport report).push i = (inReport · report) <$> e.push i := by
  obtain ⟨items, optimize, globals, report'⟩ := e
  cases globals with
  | none => rfl
  | some t =>
    simp only [push, inReport]
    split <;> rfl

theorem perform_inReport (e : Emitter) (report : Option ReportKind) (ev : Event) :
    (e.inReport report).perform ev = (inReport · report) <$> e.perform ev := by
  cases ev with
  | item i => exact push_inReport e report i
  | combining count page => rfl
  | strayField => rfl

/-- Events have their report in them, so the one that is being written does not matter any more. -/
theorem performAll_inReport (e : Emitter) (report : Option ReportKind) (es : List Event) :
    (e.inReport report).performAll es = (inReport · report) <$> e.performAll es := by
  induction es generalizing e with
  | nil => rfl
  | cons ev es ih =>
    rw [performAll_cons, performAll_cons, perform_inReport, map_bind, bind_map_left]
    exact bind_congr ih

theorem writeReport_eq (e : Emitter) (r : Report) :
    e.writeReport r = (e.inReport none).performAll (reportEvents e.optimize r) := by
  have hreport : (e.inReport (some r.kind)).push (.ofNat .reportId r.id.toNat) >>=
      (fun e => e.writeChildren [] r.children) =
        (e.inReport (some r.kind)).performAll (reportEvents e.optimize r) := by
    rw [reportEvents, performAll_cons]
    refine Logged.bind_congr fun e₁ h₁ => ?_
    have h₁ := inPlace_push h₁
    exact writeChildren_eq none r.children h₁.optimize h₁.report (absurd rfl)
  calc e.writeReport r
    _ = (inReport · none) <$> ((e.inReport (some r.kind)).push (.ofNat .reportId r.id.toNat) >>=
          fun e => e.writeChildren [] r.children) := by
      rw [map_bind]
      rfl
    _ = (inReport · none) <$> (inReport · (some r.kind)) <$>
          e.performAll (reportEvents e.optimize r) := by rw [hreport, performAll_inReport]
    _ = (e.inReport none).performAll (reportEvents e.optimize r) := by
      rw [Functor.map_map, performAll_inReport]
      rfl

theorem foldlM_eq {α : Type} {step : Emitter → α → Logged Emitter} {events : α → List Event}
    (h : ∀ e', e.InPlace e' → ∀ x, step e' x = e'.performAll (events x)) (xs : List α) :
    xs.foldlM step e = e.performAll (xs.flatMap events) := by
  induction xs generalizing e with
  | nil => rfl
  | cons x xs ih =>
    rw [List.foldlM_cons, h e (.refl e), List.flatMap_cons]
    exact performAll_bind fun e₁ h₁ => ih fun e₂ h₂ => h e₂ (h₁.trans h₂)

theorem inReport_none (h : e.report = none) : e.inReport none = e := by
  rw [inReport, ← h]

section

variable (h : e.report = none)

include h

theorem writeApplication_eq (a : Application) :
    e.writeApplication a = e.performAll (applicationEvents e.optimize a) := by
  rw [writeApplication, openCollection_eq, applicationEvents, List.append_assoc]
  refine performAll_bind fun e₁ h₁ => ?_
  have hreports : a.reports.foldlM writeReport e₁ =
      e₁.performAll (a.reports.flatMap (reportEvents e.optimize)) := by
    refine foldlM_eq (fun e₂ h₂ r => ?_) a.reports
    have h₂ := h₁.trans h₂
    rw [writeReport_eq, inReport_none (h₂.report.trans h), h₂.optimize]
  rw [hreports]
  exact performAll_bind fun e₂ h₂ => closeCollection_eq e₂

theorem write_eq (x : Element) : e.write x = e.performAll (x.events e.optimize) := by
  cases x with
  | leaf l =>
    rw [write, writeLeaf_eq, h]
    rfl
  | collection c inner =>
    rw [write, openCollection_eq, Element.events, List.append_assoc]
    refine performAll_bind fun e₁ h₁ => ?_
    rw [← heldBack_none, writeChildren_eq none inner h₁.optimize (h₁.report.trans h) (absurd rfl)]
    exact performAll_bind fun e₂ h₂ => closeCollection_eq e₂
  | report r =>
    rw [write, writeReport_eq, inReport_none h]
    rfl
  | application a => exact writeApplication_eq h a

theorem writeAll_eq (xs : List Element) :
    e.writeAll xs = e.performAll (xs.flatMap (Element.events e.optimize)) :=
  foldlM_eq (fun e' he' x => by rw [write_eq (he'.report.trans h), he'.optimize]) xs

end

/-- Items are left out only where globals are kept. -/
def keep (e : Emitter) : List ShortItem → List ShortItem :=
  e.globals.elim id GlobalState.dropRedundant

theorem items_cons_item (i : ShortItem) (es : List Event) :
    Emission.items (.item i :: es) = (Emission.items es).map (i :: ·) := by
  simp only [Emission.items, List.mem_cons, reduceCtorEq, false_or]
  split <;> rfl

theorem items_cons_combining (count : Nat) (page : UInt16) (es : List Event) :
    Emission.items (.combining count page :: es) = Emission.items es := by
  simp only [Emission.items, List.mem_cons, reduceCtorEq, false_or]
  rfl

theorem items_cons_strayField (es : List Event) :
    Emission.items (.strayField :: es) = .error .fieldOutsideReport :=
  if_pos List.mem_cons_self

/-- Without elision it makes no difference which globals are in force. -/
theorem records_false (t t' : GlobalState) (es : List Event) :
    records false t es = records false t' es := by
  induction es generalizing t t' with
  | nil => rfl
  | cons ev es ih =>
    cases ev with
    | item i => exact ih _ _
    | combining count page => exact congrArg (_ :: ·) (ih t t')
    | strayField => rfl

/-- What has been written so far stays, and the items of the events follow. -/
def outcome (e : Emitter) (es : List Event) : Logged (List ShortItem) :=
  ⟨records e.globals.isSome (e.globals.getD {}) es, (Emission.items es).map (e.items ++ e.keep ·)⟩

theorem outcome_nil (e : Emitter) : e.outcome [] = pure e.items := by
  obtain ⟨items, optimize, globals, report⟩ := e
  cases globals <;> exact congrArg (fun is => Logged.mk [] (.ok is)) (List.append_nil items)

theorem result_outcome_cons_item {i : ShortItem} (es : List Event)
    (h : ∀ is, e.items ++ e.keep (i :: is) = e'.items ++ e'.keep is) :
    (e.outcome (.item i :: es)).result = (e'.outcome es).result := by
  rw [outcome, outcome, items_cons_item]
  cases Emission.items es with
  | error fault => rfl
  | ok is => exact congrArg Except.ok (h is)

theorem outcome_cons_item (e : Emitter) (i : ShortItem) (es : List Event) :
    e.outcome (.item i :: es) = e.push i >>= (outcome · es) := by
  obtain ⟨items, optimize, globals, report⟩ := e
  cases globals with
  | none =>
    have hresult : (outcome ⟨items, optimize, none, report⟩ (.item i :: es)).result =
        (outcome ⟨items ++ [i], optimize, none, report⟩ es).result :=
      result_outcome_cons_item es fun is => List.append_cons items i is
    exact Logged.ext (records_false _ {} es) hresult
  | some t =>
    have hrecords : records true t (.item i :: es) = if t.isRedundant i then
        .eliding i :: records true t es else records true (t.after i) es := by
      rw [records, Bool.true_and]
    have hdrop (is : List ShortItem) : t.dropRedundant (i :: is) = if t.isRedundant i then
        t.dropRedundant is else i :: (t.after i).dropRedundant is := rfl
    rw [push]
    dsimp only
    split
    case isTrue hred =>
      rw [if_pos hred] at hrecords
      simp only [if_pos hred] at hdrop
      exact Logged.ext hrecords (result_outcome_cons_item es fun is =>
        congrArg (items ++ ·) (hdrop is))
    case isFalse hred =>
      rw [if_neg hred] at hrecords
      simp only [if_neg hred] at hdrop
      have hresult : (outcome ⟨items, optimize, some t, report⟩ (.item i :: es)).result =
          (outcome ⟨items ++ [i], optimize, some (t.after i), report⟩ es).result :=
        result_outcome_cons_item es fun is =>
          (congrArg (items ++ ·) (hdrop is)).trans (List.append_cons items i _)
      exact Logged.ext hrecords hresult

theorem items_performAll (e : Emitter) (es : List Event) :
    items <$> e.performAll es = e.outcome es := by
  induction es generalizing e with
  | nil => exact (outcome_nil e).symm
  | cons ev es ih =>
    rw [performAll_cons, map_bind, bind_congr ih]
    cases ev with
    | item i => exact (outcome_cons_item e i es).symm
    | combining count page =>
      rw [perform, outcome, items_cons_combining]
      rfl
    | strayField =>
      rw [perform, outcome, items_cons_strayField]
      rfl

theorem exists_performAll (e : Emitter) {es : List Event} (h : .strayField ∉ es) :
    ∃ e', (e.performAll es).result = .ok e' ∧ e.InPlace e' ∧
      e'.items = e.items ++ e.keep (itemsOf es) := by
  have hitems : (items <$> e.performAll es).result = .ok (e.items ++ e.keep (itemsOf es)) := by
    rw [items_performAll, outcome, Emission.items, if_neg h]
    rfl
  rw [Logged.result_map, map_eq_ok_iff] at hitems
  obtain ⟨e', he', hitems⟩ := hitems
  exact ⟨e', he', inPlace_performAll he', hitems⟩

theorem run_eq_emit (options : Options) (xs : List Element) :
    run options xs = emit options xs := by
  rw [run, writeAll_eq rfl, items_performAll, outcome, emit, ofOptions]
  cases options.elide <;> rfl

end Emitter

end ReportDescriptor
