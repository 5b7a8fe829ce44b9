import ReportDescriptor.Descriptor.Output
import ReportDescriptor.Proofs.Emission.Items
import ReportDescriptor.Proofs.Erasure.Basic

/-!
# Emission does not see kinds

Items hold pages and ids, and neighbours share a main item by the page of their usages, so what is
written and recorded is the same once the kinds are erased.
-/

namespace ReportDescriptor

namespace Emission

theorem usageItems_map_bare (us : List DocumentedUsage) :
    usageItems (us.map .bare) = usageItems us := by
  cases us with
  | nil => rfl
  | cons u us =>
    rw [List.map_cons, usageItems, usageItems, ← List.map_cons, List.map_map]
    rfl

theorem leafEvents_bare (report : Option ReportKind) (l : Leaf) :
    leafEvents report l.bare = leafEvents report l := by
  cases l <;> rfl

namespace Run

def bare (r : Run) : Run :=
  ⟨r.first.bare, r.others.map .bare⟩

theorem members_bare (r : Run) : r.bare.members = r.members.map .bare := by
  rw [members, members, List.map_cons, bare, List.map_reverse]

theorem events_bare (report : Option ReportKind) (r : Run) :
    r.bare.events report = r.events report := by
  have husages : r.bare.members.map Variable.usage =
      (r.members.map Variable.usage).map .bare := by
    rw [members_bare, List.map_map, List.map_map]
    rfl
  have hothers : r.bare.others.isEmpty = r.others.isEmpty := List.isEmpty_map
  have hlength : r.bare.members.length = r.members.length := by
    rw [members_bare, List.length_map]
  simp only [events, hothers, husages, usageItems_map_bare, hlength]
  rfl

end Run

theorem elim_map_bare (report : Option ReportKind) (run : Option Run) :
    (run.map Run.bare).elim [] (Run.events report) = run.elim [] (Run.events report) := by
  cases run with
  | none => rfl
  | some r => exact r.events_bare report

/-- The writer comes to the same cases, with the pending fields erased as those ahead are. -/
theorem siblingEvents_bare (optimize : Bool) (report : Option ReportKind) (run : Option Run)
    (f : FieldForest) :
    siblingEvents optimize report (run.map .bare) f.bare = siblingEvents optimize report run f := by
  fun_induction siblingEvents optimize report run f with
  | case1 run => exact elim_map_bare report run
  | case2 v rest h ih =>
    rw [← ih]
    exact if_pos h
  | case3 v rest h ih =>
    rw [← ih]
    exact if_neg h
  | case4 v rest r hjoins ih =>
    rw [← ih]
    exact if_pos ((r.first.combinableWith_bare v).trans hjoins)
  | case5 v rest r hjoins ih =>
    rw [← ih, ← r.events_bare]
    exact if_neg fun h => hjoins ((r.first.combinableWith_bare v).symm.trans h)
  | case6 run l rest hother ih =>
    rw [← ih, ← elim_map_bare, ← leafEvents_bare]
    cases l with
    | single v => exact absurd rfl (hother v)
    | _ => rfl
  | case7 run c children rest ihc ihr =>
    rw [← ihc, ← ihr, ← elim_map_bare]
    rfl

theorem reportEvents_bare (optimize : Bool) (r : Report) :
    reportEvents optimize r.bare = reportEvents optimize r :=
  congrArg (_ :: ·) (siblingEvents_bare optimize (some r.kind) none r.children)

theorem applicationEvents_bare (optimize : Bool) (a : Application) :
    applicationEvents optimize a.bare = applicationEvents optimize a := by
  have hreports : a.bare.reports.flatMap (reportEvents optimize) =
      a.reports.flatMap (reportEvents optimize) := by
    rw [Application.bare, List.flatMap_map]
    exact congrArg a.reports.flatMap (funext (reportEvents_bare optimize))
  rw [applicationEvents, hreports]
  rfl

end Emission

namespace Descriptor

theorem items_bare (d : Descriptor) (options : Options) :
    d.bare.items options = d.items options := by
  have hevents : d.bare.elements.flatMap (Element.events options.optimize) =
      d.elements.flatMap (Element.events options.optimize) := by
    rw [elements, elements, bare, List.map_map, List.flatMap_map, List.flatMap_map]
    exact congrArg d.applications.flatMap
      (funext (Emission.applicationEvents_bare options.optimize))
  rw [items, items, Emission.emit, Emission.emit, hevents]

theorem toBytes_bare (d : Descriptor) (options : Options) :
    d.bare.toBytes options = d.toBytes options := by
  rw [toBytes, toBytes, items_bare]

/-- Descriptors that compare equal are written as the same bytes, with the same records. -/
theorem toBytes_eq_of_beq {d e : Descriptor} (h : d == e) (options : Options) :
    d.toBytes options = e.toBytes options := by
  rw [← d.toBytes_bare, (isErasure_bare d e).1 h, toBytes_bare]

end Descriptor

end ReportDescriptor
