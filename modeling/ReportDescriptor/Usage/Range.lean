import ReportDescriptor.Error
import ReportDescriptor.Usage.Kind

/-!
# Usage ranges

Two or more consecutive usages on one page. The kinds of the ends are kept; the usages in between
have none.
-/

namespace ReportDescriptor

@[ext] structure UsageRange where
  first : DocumentedUsage
  last : DocumentedUsage
  page_eq : first.page = last.page
  first_lt_last : first.id < last.id
deriving DecidableEq

namespace UsageRange

instance : BEq UsageRange := ⟨fun r s => r.first == s.first && r.last == s.last⟩

def ofEnds (first last : DocumentedUsage) : Except Error UsageRange :=
  if hpage : first.page = last.page then
    if h : first.id < last.id then .ok ⟨first, last, hpage, h⟩
    else .error (.invalidUsage (.notAscending first.toUsage last.toUsage))
  else .error (.invalidUsage (.spansPages first.toUsage last.toUsage))

variable (r : UsageRange)

def page : UInt16 :=
  r.first.page

/-- Both ends are included. -/
def count : Nat :=
  r.last.id.toNat - r.first.id.toNat + 1

def usages : List Usage :=
  (List.range' r.first.id.toNat r.count).map fun i => ⟨r.page, UInt16.ofNat i⟩

theorem first_toNat_lt : r.first.id.toNat < r.last.id.toNat :=
  UInt16.lt_iff_toNat_lt.1 r.first_lt_last

theorem two_le_count : 2 ≤ r.count := by
  have h := r.first_toNat_lt
  simp only [count]
  omega

theorem count_le : r.count ≤ 65536 := by
  have h := r.last.id.toNat_lt
  simp only [count]
  omega

@[simp] theorem length_usages : r.usages.length = r.count := by
  simp [usages]

end UsageRange

/-- Which usages are known to exist. -/
abbrev UsageTable := Usage → Bool

def UsageTable.everything : UsageTable :=
  fun _ => true

/-- All usages of the range have to be known; the first one that is not is at fault. -/
def UsageRange.ensureKnown (r : UsageRange) (table : UsageTable) : Except Error PUnit :=
  match r.usages.find? (!table ·) with
  | some u => .error (.invalidUsage (.unknown u r.first.toUsage r.last.toUsage))
  | none => .ok ⟨⟩

theorem UsageRange.ensureKnown_eq_ok_iff (r : UsageRange) (table : UsageTable) :
    r.ensureKnown table = .ok ⟨⟩ ↔ ∀ u ∈ r.usages, table u = true := by
  simp only [ensureKnown]
  split
  · rename_i u h
    have hu := List.find?_some h
    have hmem := List.mem_of_find?_eq_some h
    simp only [reduceCtorEq, false_iff]
    intro hall
    simp [hall u hmem] at hu
  · rename_i h
    simp only [true_iff]
    intro u hu
    have hnot := List.find?_eq_none.1 h u hu
    simpa using hnot

end ReportDescriptor
