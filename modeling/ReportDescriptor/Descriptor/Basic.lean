import ReportDescriptor.Report

/-!
# Descriptors

A descriptor is a list of applications, such as a mouse or a keyboard, and an application a list
of reports. The id of a report is unique among the reports of its kind in the whole descriptor.
-/

namespace ReportDescriptor

structure Application where
  usage : DocumentedUsage
  reports : List Report
deriving DecidableEq, BEq

namespace Application

def build (usage : DocumentedUsage) (reports : List Report) : Except Error Application :=
  if reports.isEmpty then .error (.missing .applicationReports) else .ok ⟨usage, reports⟩

variable (a : Application)

def bits : Nat :=
  total Report.bits a.reports

def rawBits : Nat :=
  total Report.rawBits a.reports

end Application

structure Descriptor where
  applications : List Application
deriving DecidableEq, BEq

namespace Descriptor

/-- The first report whose kind and id are those of a report before it or of one in `seen`. -/
def firstDuplicate? (seen : List (ReportKind × UInt8)) : List Report → Option Report
  | [] => none
  | r :: rs =>
    if (r.kind, r.id) ∈ seen then some r else firstDuplicate? ((r.kind, r.id) :: seen) rs

def build (applications : List Application) : Except Error Descriptor :=
  if applications.isEmpty then .error (.missing .applications)
  else
    match firstDuplicate? [] (applications.flatMap Application.reports) with
    | some r => .error (.duplicateReportId r.kind r.id)
    | none => .ok ⟨applications⟩

def reports (d : Descriptor) : List Report :=
  d.applications.flatMap Application.reports

end Descriptor

end ReportDescriptor
