import ReportDescriptor.Proofs.Reading.Siblings

/-!
# Reading a whole descriptor

Reports are read one behind the other, each from the cursor that the reports of its kind and id
have left. The items of a descriptor are read as its applications, whether or not fields share
main items, unless more of them share one than a word can count.
-/

namespace ReportDescriptor

/-- How far a reader has come, and the attributes in force there. -/
structure Position where
  cursors : Cursors := .start
  attributes : Attributes := {}

namespace Position

variable (p : Position)

def after (r : Report) : Position :=
  ⟨p.cursors.advance r.kind r.id.toNat r.bits, lastAttributes p.attributes r.leaves⟩

def afterAll (rs : List Report) : Position :=
  rs.foldl after p

@[simp] theorem afterAll_nil : p.afterAll [] = p := rfl

@[simp] theorem afterAll_cons (r : Report) (rs : List Report) :
    p.afterAll (r :: rs) = (p.after r).afterAll rs := rfl

@[simp] theorem afterAll_append (rs rs' : List Report) :
    p.afterAll (rs ++ rs') = (p.afterAll rs).afterAll rs' :=
  List.foldl_append

end Position

/-- What a report is read as. -/
def Report.reading (p : Position) (r : Report) : SlotForest :=
  r.children.reading r.kind r.id.toNat (p.cursors r.kind r.id.toNat, p.attributes)

def readingOfReports (p : Position) : List Report → SlotForest
  | [] => .nil
  | r :: rs => r.reading p ++ readingOfReports (p.after r) rs

def readingOfApplications (p : Position) : List Application → SlotForest
  | [] => .nil
  | a :: as =>
    .node ⟨.application, a.usage.toUsage⟩ (readingOfReports p a.reports)
      (readingOfApplications (p.afterAll a.reports) as)

def Descriptor.reading (d : Descriptor) : SlotForest :=
  readingOfApplications {} d.applications

def Reader.position (s : Reader) : Position :=
  ⟨s.cursors, s.globals.attributes⟩

namespace Emission

/-- The items are read as what the reports `rs` leave behind, in the order of the reports. -/
def ReadsReports (is : List ShortItem) (rs : List Report) (out : Position → SlotForest) : Prop :=
  ∀ s : Reader, s.locals = [] → ∃ g,
    s.run? is = some { s with
      globals := g
      read := s.read ++ out s.position
      cursors := (s.position.afterAll rs).cursors } ∧
    g.attributes = (s.position.afterAll rs).attributes

variable {is js : List ShortItem} {rs rs' : List Report} {out out' : Position → SlotForest}

theorem readsReports_nil : ReadsReports [] [] fun _ => .nil := by
  intro s _
  refine ⟨s.globals, ?_, rfl⟩
  rw [Reader.run?_nil, Forest.append_nil]
  rfl

theorem ReadsReports.append (h : ReadsReports is rs out) (h' : ReadsReports js rs' out') :
    ReadsReports (is ++ js) (rs ++ rs') fun p => out p ++ out' (p.afterAll rs) := by
  intro s hlocals
  obtain ⟨g, hrun, hg⟩ := h s hlocals
  let t : Reader := { s with
    globals := g
    read := s.read ++ out s.position
    cursors := (s.position.afterAll rs).cursors }
  have hposition : t.position = s.position.afterAll rs := by
    rw [Reader.position, hg]
  obtain ⟨g', hrun', hg'⟩ := h' t hlocals
  rw [hposition, ← Position.afterAll_append] at hrun' hg'
  refine ⟨g', ?_, hg'⟩
  rw [Reader.run?_append, hrun, Option.bind_some, hrun']
  simp only [t, Forest.append_assoc]

theorem readsReports_report (optimize : Bool) {r : Report}
    (hr : optimize = true → ∀ b ∈ FieldForest.blocks r.children, b.length < UInt32.size) :
    ReadsReports (itemsOf (reportEvents optimize r)) [r] fun p => r.reading p := by
  intro s hlocals
  let t : Reader := { s with globals := s.globals.after (.ofNat .reportId r.id.toNat) }
  have hid : t.reportId = r.id.toNat := by
    have hunsigned : t.globals.unsigned? .reportId = some r.id.toNat :=
      Globals.unsigned?_of_eq_ofNat rfl (Nat.lt_trans r.id.toNat_lt (by decide))
    rw [Reader.reportId, hunsigned]
    rfl
  have hsiblings : Reads r.kind r.id.toNat
      (itemsOf (siblingEvents optimize (some r.kind) none r.children)) r.children := by
    exact reads_siblings optimize forall_mem_none fun h => hr (h.resolve_right fun h => h rfl)
  obtain ⟨g, hrun, -, hg⟩ := hsiblings t hlocals hid
  refine ⟨g, ?_, hg⟩
  change (s.step? (.ofNat .reportId r.id.toNat)).bind (fun t => t.run?
    (itemsOf (siblingEvents optimize (some r.kind) none r.children))) = _
  rw [Reader.step?_globalItem rfl, Option.bind_some, hrun]
  rfl

theorem readsReports_reports (optimize : Bool) {rs : List Report}
    (hrs : optimize = true →
      ∀ r ∈ rs, ∀ b ∈ FieldForest.blocks r.children, b.length < UInt32.size) :
    ReadsReports (itemsOf (rs.flatMap (reportEvents optimize))) rs fun p =>
      readingOfReports p rs := by
  induction rs with
  | nil => exact readsReports_nil
  | cons r rs ih =>
    have hfirst := readsReports_report optimize fun h => hrs h r List.mem_cons_self
    have hrest := ih fun h q hq => hrs h q (List.mem_cons_of_mem r hq)
    rw [List.flatMap_cons, itemsOf_append]
    exact hfirst.append hrest

theorem readsReports_application (optimize : Bool) {a : Application}
    (ha : optimize = true →
      ∀ r ∈ a.reports, ∀ b ∈ FieldForest.blocks r.children, b.length < UInt32.size) :
    ReadsReports (itemsOf (applicationEvents optimize a)) a.reports fun p =>
      .node ⟨.application, a.usage.toUsage⟩ (readingOfReports p a.reports) .nil := by
  intro s hlocals
  obtain ⟨g, hrun, hg⟩ :=
    readsReports_reports optimize ha (opening s a.usage.toUsage .application) hlocals
  refine ⟨g, ?_, hg⟩
  rw [applicationEvents, itemsOf_append, itemsOf_append, run?_collection hlocals hrun]
  rfl

theorem readsReports_applications (optimize : Bool) {as : List Application}
    (has : optimize = true → ∀ r ∈ as.flatMap Application.reports,
      ∀ b ∈ FieldForest.blocks r.children, b.length < UInt32.size) :
    ReadsReports (itemsOf (as.flatMap (applicationEvents optimize)))
      (as.flatMap Application.reports) fun p => readingOfApplications p as := by
  induction as with
  | nil => exact readsReports_nil
  | cons a as ih =>
    simp only [List.flatMap_cons, List.forall_mem_append] at has
    have hfirst := readsReports_application optimize fun h => (has h).1
    have hrest := ih fun h => (has h).2
    rw [List.flatMap_cons, List.flatMap_cons, itemsOf_append]
    exact hfirst.append hrest

theorem read?_itemsOf (d : Descriptor) (optimize : Bool)
    (hblocks : optimize = true → ∀ b ∈ d.blocks, b.length < UInt32.size) :
    Reader.read? (itemsOf (d.applications.flatMap (applicationEvents optimize))) =
      some d.reading := by
  have hreports : optimize = true → ∀ r ∈ d.reports,
      ∀ b ∈ FieldForest.blocks r.children, b.length < UInt32.size :=
    fun h r hr b hb => hblocks h b (List.mem_flatMap.2 ⟨r, hr, hb⟩)
  obtain ⟨g, hrun, -⟩ := readsReports_applications optimize hreports {} rfl
  rw [Reader.read?, hrun]
  rfl

end Emission

end ReportDescriptor
