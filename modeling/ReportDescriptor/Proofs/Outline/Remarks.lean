import ReportDescriptor.Proofs.Erasure.Build
import ReportDescriptor.Proofs.Erasure.Emission
import ReportDescriptor.Proofs.Outline.Steps

/-!
# Remarks have no influence

The name of a field and the kinds that a usage is documented for are remarks. Kinds are kept in all
that is built, but two outlines that are the same without their remarks are built in step: into
fields, reports and descriptors that compare equal and are written as the same bytes, or they fail
at the same step for the same reason.
-/

namespace ReportDescriptor

def FieldOutline.bare (f : FieldOutline) : FieldOutline :=
  { f with spec := f.spec.map .bare }

def CollectionOutline.bare (c : CollectionOutline) : CollectionOutline :=
  { c with usage := c.usage.bare }

def ForestOutline.bare (f : ForestOutline) : ForestOutline :=
  f.relabel CollectionOutline.bare FieldOutline.bare

def ReportOutline.bare (r : ReportOutline) : ReportOutline :=
  { r with children := r.children.bare }

def ApplicationOutline.bare (a : ApplicationOutline) : ApplicationOutline :=
  ⟨a.usage.bare, a.reports.map .bare⟩

open Error Outcome

variable (ctx : BuildContext)

theorem Leaf.alike_build {s s' : FieldSpec} (h : s.bare = s'.bare) (report : ReportKind) :
    Alike (build s report ctx) (build s' report ctx) := by
  have hunnamed : Alike (buildUnnamed s report ctx) (buildUnnamed s' report ctx) := by
    refine .of_map_eq isErasure_bare ?_
    rw [← buildUnnamed_bare, h, buildUnnamed_bare]
  rw [build, build]
  generalize buildUnnamed s report ctx = x at hunnamed
  generalize buildUnnamed s' report ctx = x' at hunnamed
  cases hunnamed with
  | ok h => exact .ok h
  | error h => exact .error (by rw [bare_under, bare_under, h])

theorem FieldOutline.alike_build {f f' : FieldOutline} (h : f.bare = f'.bare)
    (around : ReportKind) : Alike (f.build around ctx) (f'.build around ctx) := by
  obtain ⟨spec, report⟩ := f
  obtain ⟨spec', report'⟩ := f'
  rw [bare, bare, mk.injEq] at h
  obtain ⟨hspec, rfl⟩ := h
  cases spec with
  | error e =>
    cases spec' with
    | error e' =>
      obtain rfl := Except.error.inj hspec
      exact .error rfl
    | ok s' => cases hspec
  | ok s =>
    cases spec' with
    | error e' => cases hspec
    | ok s' => exact Leaf.alike_build ctx (Except.ok.inj hspec) _

theorem CollectionOutline.alike_build {c c' : CollectionOutline} (h : c.bare = c'.bare)
    {f f' : FieldForest} (hf : f == f') : Alike (c.build f) (c'.build f') := by
  have hcollection : Collection.bare ⟨c.kind, c.usage⟩ = Collection.bare ⟨c'.kind, c'.usage⟩ :=
    congrArg (fun d => Collection.mk d.kind d.usage) h
  refine .of_map_eq FieldForest.isErasure_bare ?_
  rw [build, build, ← Collection.build_bare, hcollection, (FieldForest.isErasure_bare f f').1 hf,
    Collection.build_bare]

theorem ForestOutline.inStep {f f' : ForestOutline} (h : bare f = bare f') (around : ReportKind) :
    InStep (outcomes around ctx f) (outcomes around ctx f') (build around ctx f)
      (build around ctx f') := by
  induction f generalizing f' with
  | nil =>
    cases f' with
    | nil => exact .ok nil_beq_nil rfl
    | leaf _ _ => cases h
    | node _ _ _ => cases h
  | leaf a rest ih =>
    cases f' with
    | nil => cases h
    | node _ _ _ => cases h
    | leaf a' rest' =>
      rw [bare, bare, Forest.relabel, Forest.relabel, Forest.leaf.injEq] at h
      have hfield := InStep.single .field (fun _ _ h => h) (FieldOutline.alike_build ctx h.1 around)
      refine hfield.followedBy fun l l' hl => (ih h.2).map fun g g' hg => ?_
      exact Bool.and_eq_true_iff.2 ⟨hl, hg⟩
  | node c children rest ihc ihr =>
    cases f' with
    | nil => cases h
    | leaf _ _ => cases h
    | node c' children' rest' =>
      rw [bare, bare, Forest.relabel, Forest.relabel, Forest.node.injEq] at h
      refine (ihc h.2.1).followedBy fun inner inner' hinner => ?_
      have hcollection := InStep.single .collection (fun _ _ h => h)
        (CollectionOutline.alike_build h.1 hinner)
      refine hcollection.followedBy fun tree tree' htree => (ihr h.2.2).map fun g g' hg => ?_
      exact FieldForest.append_beq_append htree hg

/-- Layout goes the same way for fields that compare equal. -/
theorem Report.alike_build (kind : ReportKind) (id : UInt8) {f f' : FieldForest} (h : f == f') :
    (build kind id f).Alike (build kind id f') := by
  refine .of_map_eq isErasure_bare ?_
  rw [← build_bare, (FieldForest.isErasure_bare f f').1 h, build_bare]

theorem ReportOutline.inStep {r r' : ReportOutline} (h : r.bare = r'.bare) :
    Logged.InStep (r.outcomes ctx) (r'.outcomes ctx) (r.build ctx) (r'.build ctx) := by
  obtain ⟨kind, id, children⟩ := r
  obtain ⟨kind', id', children'⟩ := r'
  rw [bare, bare, mk.injEq] at h
  obtain ⟨rfl, rfl, hchildren⟩ := h
  have hforest := Logged.InStep.ofExcept (ForestOutline.inStep ctx hchildren kind)
  refine hforest.bind fun f f' hf => ?_
  have hreport := Report.alike_build kind id hf
  exact ⟨hreport.records_eq, .single .report (fun _ _ h => h) hreport.result⟩

theorem ApplicationOutline.inStep {a a' : ApplicationOutline} (h : a.bare = a'.bare) :
    Logged.InStep (a.outcomes ctx) (a'.outcomes ctx) (a.build ctx) (a'.build ctx) := by
  obtain ⟨usage, reports⟩ := a
  obtain ⟨usage', reports'⟩ := a'
  rw [bare, bare, mk.injEq] at h
  obtain ⟨husage, hreports⟩ := h
  have hreports := Logged.InStep.mapM (fun _ _ => ReportOutline.inStep ctx) hreports
  refine hreports.bind fun rs rs' hrs => ⟨rfl, .single .application (fun _ _ h => h) ?_⟩
  refine .of_map_eq Application.isErasure_bare ?_
  have hrs : rs.map Report.bare = rs'.map Report.bare := (Report.isErasure_bare.map rs rs').1 hrs
  change Application.bare <$> Application.build usage rs =
    Application.bare <$> Application.build usage' rs'
  rw [← Application.build_bare, ← Application.build_bare, hrs]
  exact congrArg (Application.build · _) husage

theorem Descriptor.alike_build {as as' : List Application} (h : as == as') :
    Alike (build as) (build as') := by
  refine .of_map_eq isErasure_bare ?_
  rw [← build_bare, (Application.isErasure_bare.map as as').1 h, build_bare]

namespace Sample

/-- A mouse of a wheel and three buttons, with these remarks on all of it. -/
def mouse (name : Option String) (kinds : List UsageKind) : List ApplicationOutline :=
  let wheel : FieldSpec :=
    { kind := .single, name, usage := some ⟨⟨1, 0x38⟩, kinds⟩, size := some 8 }
  let buttons : FieldSpec :=
    { kind := .range, name, usageRange := some (⟨⟨9, 1⟩, kinds⟩, ⟨⟨9, 3⟩, kinds⟩),
      logical := some (0, 1) }
  [⟨⟨⟨1, 2⟩, kinds⟩, [⟨.input, 1,
    .node ⟨.physical, ⟨⟨1, 1⟩, kinds⟩⟩ (.leaf ⟨.ok wheel, none⟩ (.leaf ⟨.ok buttons, none⟩ .nil))
      .nil⟩]⟩]

def plainMouse : List ApplicationOutline :=
  mouse none []

def annotatedMouse : List ApplicationOutline :=
  mouse (some "pointer") [.linearControl, .onOffControl]

end Sample

namespace Descriptor

/-- Outlines that differ in remarks only have products that compare equal at the same steps, up to
a last step at which both fail for the same reason or both have descriptors that compare equal;
these are written as the same bytes, with the same records, under all options. -/
theorem outcomes_of_bare_eq {apps apps' : List ApplicationOutline}
    (h : apps.map ApplicationOutline.bare = apps'.map ApplicationOutline.bare) :
    ∃ products products' : List Product, products == products' ∧
      outcomes apps ctx = products.map .ok ++ [.descriptor <$> (ofOutline apps ctx).result] ∧
      outcomes apps' ctx = products'.map .ok ++ [.descriptor <$> (ofOutline apps' ctx).result] ∧
      (ofOutline apps ctx).Alike (ofOutline apps' ctx) ∧
      ∀ d d', (ofOutline apps ctx).result = .ok d → (ofOutline apps' ctx).result = .ok d' →
        ∀ options, d.toBytes options = d'.toBytes options := by
  have happs := Logged.InStep.mapM (fun _ _ => ApplicationOutline.inStep ctx) h
  have halike : (ofOutline apps ctx).Alike (ofOutline apps' ctx) :=
    happs.alike.bind fun _ _ has => ⟨rfl, alike_build has⟩
  obtain ⟨products, products', hproducts, hleft, hright⟩ :=
    happs.result.exists_last .descriptor Descriptor.build Descriptor.build
  refine ⟨products, products', hproducts, ?_, ?_, halike, fun d d' hd hd' options => ?_⟩
  · rw [outcomes, hleft, ofOutline, Logged.result_bind]
    rfl
  · rw [outcomes, hright, ofOutline, Logged.result_bind]
    rfl
  · have hresult := halike.result
    rw [hd, hd'] at hresult
    cases hresult with
    | ok hdd' => exact toBytes_eq_of_beq hdd' options

/-- The two mice are not the same, since their kinds are kept. -/
theorem outcomes_of_bare_eq_sample :
    Sample.annotatedMouse.map ApplicationOutline.bare =
        Sample.plainMouse.map ApplicationOutline.bare ∧
      (∃ d d', (ofOutline Sample.annotatedMouse {}).result = .ok d ∧
        (ofOutline Sample.plainMouse {}).result = .ok d' ∧ d ≠ d') ∧
      ∃ products products' : List Product, products == products' ∧
        outcomes Sample.annotatedMouse {} =
            products.map .ok ++ [.descriptor <$> (ofOutline Sample.annotatedMouse {}).result] ∧
        outcomes Sample.plainMouse {} =
            products'.map .ok ++ [.descriptor <$> (ofOutline Sample.plainMouse {}).result] ∧
        (ofOutline Sample.annotatedMouse {}).Alike (ofOutline Sample.plainMouse {}) ∧
        ∀ d d', (ofOutline Sample.annotatedMouse {}).result = .ok d →
          (ofOutline Sample.plainMouse {}).result = .ok d' →
          ∀ options, d.toBytes options = d'.toBytes options :=
  ⟨rfl, ⟨_, _, rfl, rfl, by decide⟩, outcomes_of_bare_eq {} rfl⟩

end Descriptor

end ReportDescriptor
