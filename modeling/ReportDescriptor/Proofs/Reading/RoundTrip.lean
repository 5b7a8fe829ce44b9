import ReportDescriptor.Proofs.Descriptor
import ReportDescriptor.Proofs.Layout.Fields
import ReportDescriptor.Proofs.Reading.Options
import ReportDescriptor.Proofs.Sample

/-!
# Descriptors are read as they are

Since the reports of a descriptor are distinct, no report has left the cursor of another one
behind its start. So a reader finds each field where its report puts it.
-/

namespace ReportDescriptor

namespace Position

variable {p : Position} {rs rs' : List Report}

/-- The reports have not been begun. -/
def Fresh (p : Position) (rs : List Report) : Prop :=
  ∀ r ∈ rs, p.cursors r.kind r.id.toNat = 0

theorem fresh_append : p.Fresh (rs ++ rs') ↔ p.Fresh rs ∧ p.Fresh rs' :=
  List.forall_mem_append

theorem fresh_start (rs : List Report) : Fresh {} rs := fun _ _ => rfl

theorem Fresh.after {r : Report} (h : p.Fresh rs)
    (hr : ∀ q ∈ rs, (r.kind, r.id) ≠ (q.kind, q.id)) : (p.after r).Fresh rs := by
  intro q hq
  have hother : ¬(q.kind = r.kind ∧ q.id.toNat = r.id.toNat) := by
    rintro ⟨hkind, hid⟩
    exact hr q hq (Prod.ext hkind.symm (UInt8.toNat_inj.1 hid).symm)
  exact (p.cursors.advance_of_ne r.kind r.id.toNat hother r.bits).trans (h q hq)

theorem Fresh.afterAll (h : p.Fresh rs')
    (hne : ∀ q ∈ rs, ∀ r ∈ rs', (q.kind, q.id) ≠ (r.kind, r.id)) :
    (p.afterAll rs).Fresh rs' := by
  induction rs generalizing p with
  | nil => exact h
  | cons q rs ih =>
    rw [List.forall_mem_cons] at hne
    exact ih (h.after hne.1) hne.2

end Position

open Position

variable {p : Position}

theorem mapLeaves_meaning_report {r : Report} (hr : r.Built)
    (hcursor : p.cursors r.kind r.id.toNat = 0) :
    (r.reading p).mapLeaves Slot.meaning = r.tree := by
  rw [Report.reading, hcursor]
  exact FieldForest.mapLeaves_meaning_reading hr.eq_kind

theorem mapLeaves_meaning_reports {rs : List Report} (hbuilt : ∀ r ∈ rs, r.Built)
    (hdistinct : Distinct rs) (hfresh : p.Fresh rs) :
    (readingOfReports p rs).mapLeaves Slot.meaning = Forest.join (rs.map Report.tree) := by
  induction rs generalizing p with
  | nil => rfl
  | cons r rs ih =>
    obtain ⟨hne, hdistinct⟩ := distinct_cons.1 hdistinct
    obtain ⟨hr, hbuilt⟩ := List.forall_mem_cons.1 hbuilt
    obtain ⟨hcursor, hfresh⟩ := List.forall_mem_cons.1 hfresh
    have hrest := ih hbuilt hdistinct (Fresh.after hfresh hne)
    rw [readingOfReports, Forest.mapLeaves_append, mapLeaves_meaning_report hr hcursor, hrest]
    rfl

theorem mapLeaves_meaning_applications {as : List Application}
    (hbuilt : ∀ r ∈ as.flatMap Application.reports, r.Built)
    (hdistinct : Distinct (as.flatMap Application.reports))
    (hfresh : p.Fresh (as.flatMap Application.reports)) :
    (readingOfApplications p as).mapLeaves Slot.meaning =
      Forest.join (as.map Application.tree) := by
  induction as generalizing p with
  | nil => rfl
  | cons a as ih =>
    rw [List.flatMap_cons] at hbuilt hdistinct hfresh
    obtain ⟨hbuiltFirst, hbuiltRest⟩ := List.forall_mem_append.1 hbuilt
    obtain ⟨hdistinctFirst, hdistinctRest, hne⟩ := distinct_append.1 hdistinct
    obtain ⟨hfreshFirst, hfreshRest⟩ := fresh_append.1 hfresh
    have hfirst := mapLeaves_meaning_reports hbuiltFirst hdistinctFirst hfreshFirst
    have hrest := ih hbuiltRest hdistinctRest (hfreshRest.afterAll hne)
    rw [readingOfApplications, Forest.mapLeaves, hfirst, hrest]
    rfl

namespace Descriptor

/-- The items of a descriptor are read as its tree. -/
theorem read?_items_of_build {as : List Application} {d : Descriptor} (hd : build as = .ok d)
    (hbuilt : ∀ r ∈ d.reports, r.Built) (packing : Packing) :
    ∃ items slots, (d.items ⟨packing, false, false⟩).result = .ok items ∧
      Reader.read? items = some slots ∧ slots.mapLeaves Slot.meaning = d.tree := by
  obtain ⟨-, hdistinct, -⟩ := build_eq_ok_iff.1 hd
  obtain ⟨items, hitems, hread⟩ := d.read?_items ⟨packing, false, false⟩ fun h => nomatch h
  exact ⟨items, d.reading, hitems, hread,
    mapLeaves_meaning_applications hbuilt hdistinct (fresh_start _)⟩

theorem read?_items_sample :
    build Sample.device.applications = .ok Sample.device ∧
      (∀ r ∈ Sample.device.reports, r.Built) ∧
      ∃ items slots, (Sample.device.items ⟨.tight, false, false⟩).result = .ok items ∧
        Reader.read? items = some slots ∧ slots.mapLeaves Slot.meaning = Sample.device.tree := by
  have hbuild : build Sample.device.applications = .ok Sample.device := rfl
  exact ⟨hbuild, Sample.device_built, read?_items_of_build hbuild Sample.device_built .tight⟩

end Descriptor

end ReportDescriptor
