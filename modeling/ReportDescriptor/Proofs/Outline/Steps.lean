import ReportDescriptor.Outline
import ReportDescriptor.Proofs.Erasure.Basic

/-!
# The steps of building

Building an outline takes one step for each field, collection, report and application, and a last
one for the descriptor. The steps that are taken are listed here with their outcomes. Two runs are
in step when their products compare equal all the way and they then end alike: with results that
compare equal, or at the same step with faults that differ at most in the names they are reported
under.
-/

namespace ReportDescriptor

variable {α β γ : Type} [BEq α] [BEq β]

namespace Error

/-- The fault itself, under no name. -/
def bare : Error → Error
  | named _ source => source.bare
  | e => e

theorem bare_under (name : Option String) (e : Error) : (e.under name).bare = e.bare := by
  cases name <;> rfl

/-- Both succeed with values that compare equal, or both fail with the same fault. -/
inductive Alike : Except Error α → Except Error α → Prop
  | ok {a a' : α} (h : a == a') : Alike (.ok a) (.ok a')
  | error {e e' : Error} (h : e.bare = e'.bare) : Alike (.error e) (.error e')

theorem Alike.of_map_eq {bare : α → γ} (hbare : IsErasure bare) {x x' : Except Error α}
    (h : bare <$> x = bare <$> x') : Alike x x' := by
  cases x with
  | ok a =>
    cases x' with
    | ok a' => exact .ok ((hbare a a').2 (Except.ok.inj h))
    | error e' => cases h
  | error e =>
    cases x' with
    | ok a' => cases h
    | error e' =>
      obtain rfl := Except.error.inj h
      exact .error rfl

end Error

open Error

namespace Logged

/-- The same records, and results that are alike. -/
structure Alike (x x' : Logged α) : Prop where
  records_eq : x.records = x'.records
  result : Error.Alike x.result x'.result

theorem Alike.of_map_eq {bare : α → γ} (hbare : IsErasure bare) {x x' : Logged α}
    (h : bare <$> x = bare <$> x') : x.Alike x' := by
  have hrecords (y : Logged α) : (bare <$> y).records = y.records := by
    obtain ⟨records, r⟩ := y
    cases r with
    | ok a => exact List.append_nil records
    | error e => rfl
  refine ⟨?_, .of_map_eq hbare ?_⟩
  · rw [← hrecords x, h, hrecords]
  · rw [← result_map, h, result_map]

theorem Alike.bind {x x' : Logged α} {f f' : α → Logged β} (hx : x.Alike x')
    (hf : ∀ a a', a == a' → (f a).Alike (f' a')) : (x >>= f).Alike (x' >>= f') := by
  obtain ⟨records, r⟩ := x
  obtain ⟨records', r'⟩ := x'
  obtain ⟨hrecords, hresult⟩ := hx
  obtain rfl : records = records' := hrecords
  cases hresult with
  | ok h => exact ⟨congrArg (records ++ ·) (hf _ _ h).records_eq, (hf _ _ h).result⟩
  | error h => exact ⟨rfl, .error h⟩

end Logged

/-- What a step yields if it succeeds. -/
inductive Product
  | field (l : Leaf)
  | collection (f : FieldForest)
  | report (r : Report)
  | application (a : Application)
  | descriptor (d : Descriptor)
deriving BEq

abbrev Outcome := Except Error Product

namespace Outcome

/-- The outcomes of one part and, if that succeeds, those of what comes next. -/
def followedBy (outcomes : List Outcome) (part : Except Error γ) (next : γ → List Outcome) :
    List Outcome :=
  match part with
  | .ok a => outcomes ++ next a
  | .error _ => outcomes

/-- Parts of one kind, one after another. -/
def inTurn {δ : Type} (outcomes : γ → List Outcome) (part : γ → Logged δ) :
    List γ → List Outcome
  | [] => []
  | a :: as => followedBy (outcomes a) (part a).result fun _ => inTurn outcomes part as

/-- Two runs with products that compare equal, step by step, and that end alike. -/
inductive InStep : List Outcome → List Outcome → Except Error α → Except Error α → Prop
  | ok {products products' : List Product} (hproducts : products == products') {a a' : α}
      (h : a == a') :
      InStep (products.map .ok) (products'.map .ok) (.ok a) (.ok a')
  | error {products products' : List Product} (hproducts : products == products')
      {e e' : Error} (h : e.bare = e'.bare) :
      InStep (products.map .ok ++ [.error e]) (products'.map .ok ++ [.error e']) (.error e)
        (.error e')

theorem nil_beq_nil : ([] : List α) == [] := rfl

theorem append_beq_append {as bs as' bs' : List α} (h : as == as') (h' : bs == bs') :
    as ++ bs == as' ++ bs' := by
  induction as generalizing as' with
  | nil =>
    cases as' with
    | nil => exact h'
    | cons a' as' => cases h
  | cons a as ih =>
    cases as' with
    | nil => cases h
    | cons a' as' =>
      rw [List.cons_beq_cons, Bool.and_eq_true] at h
      rw [List.cons_append, List.cons_append, List.cons_beq_cons, Bool.and_eq_true]
      exact ⟨h.1, ih h.2⟩

namespace InStep

variable {os os' : List Outcome} {x x' : Except Error α}

theorem alike (h : InStep os os' x x') : Alike x x' := by
  cases h with
  | ok _ h => exact .ok h
  | error _ h => exact .error h

theorem single (product : α → Product) (hproduct : ∀ a a', a == a' → product a == product a')
    (h : Alike x x') : InStep [product <$> x] [product <$> x'] x x' := by
  cases h with
  | @ok a a' h =>
    have hproducts : [product a] == [product a'] := by
      rw [List.cons_beq_cons, hproduct a a' h]
      rfl
    exact .ok hproducts h
  | error h => exact .error nil_beq_nil h

theorem map (h : InStep os os' x x') {f f' : α → β} (hf : ∀ a a', a == a' → f a == f' a') :
    InStep os os' (x >>= fun a => pure (f a)) (x' >>= fun a => pure (f' a)) := by
  cases h with
  | ok hproducts h => exact .ok hproducts (hf _ _ h)
  | error hproducts h => exact .error hproducts h

theorem followedBy {next next' : α → List Outcome} {f f' : α → Except Error β}
    (h : InStep os os' x x')
    (hnext : ∀ a a', a == a' → InStep (next a) (next' a') (f a) (f' a')) :
    InStep (Outcome.followedBy os x next) (Outcome.followedBy os' x' next') (x >>= f)
      (x' >>= f') := by
  cases h with
  | error hproducts h => exact .error hproducts h
  | @ok products products' hproducts a a' h =>
    have hnext := hnext a a' h
    simp only [Outcome.followedBy, bind, Except.bind]
    generalize next a = ns at hnext
    generalize next' a' = ns' at hnext
    generalize f a = y at hnext
    generalize f' a' = y' at hnext
    cases hnext with
    | ok hmore h =>
      rw [← List.map_append, ← List.map_append]
      exact .ok (append_beq_append hproducts hmore) h
    | error hmore h =>
      rw [← List.append_assoc, ← List.append_assoc, ← List.map_append, ← List.map_append]
      exact .error (append_beq_append hproducts hmore) h

/-- Where there is a last step, with a product of its own, both runs come to it or neither. -/
theorem exists_last (h : InStep os os' x x') (product : γ → Product)
    (f f' : α → Except Error γ) :
    ∃ products products' : List Product, products == products' ∧
      Outcome.followedBy os x (fun a => [product <$> f a]) =
          products.map .ok ++ [product <$> (x >>= f)] ∧
        Outcome.followedBy os' x' (fun a => [product <$> f' a]) =
          products'.map .ok ++ [product <$> (x' >>= f')] := by
  cases h with
  | ok hproducts _ => exact ⟨_, _, hproducts, rfl, rfl⟩
  | error hproducts _ => exact ⟨_, _, hproducts, rfl, rfl⟩

end InStep

end Outcome

open Outcome

namespace Logged

/-- Two runs in step that also leave the same records. -/
structure InStep (os os' : List Outcome) (x x' : Logged α) : Prop where
  records_eq : x.records = x'.records
  result : Outcome.InStep os os' x.result x'.result

namespace InStep

variable {os os' : List Outcome}

theorem alike {x x' : Logged α} (h : InStep os os' x x') : x.Alike x' :=
  ⟨h.records_eq, h.result.alike⟩

theorem ofExcept {x x' : Except Error α} (h : Outcome.InStep os os' x x') :
    InStep os os' (Logged.ofExcept x) (Logged.ofExcept x') :=
  ⟨rfl, h⟩

theorem bind {x x' : Logged α} {next next' : α → List Outcome} {f f' : α → Logged β}
    (h : InStep os os' x x')
    (hnext : ∀ a a', a == a' → InStep (next a) (next' a') (f a) (f' a')) :
    InStep (followedBy os x.result next) (followedBy os' x'.result next') (x >>= f)
      (x' >>= f') := by
  refine ⟨(h.alike.bind fun a a' ha => (hnext a a' ha).alike).records_eq, ?_⟩
  rw [result_bind, result_bind]
  exact h.result.followedBy fun a a' ha => (hnext a a' ha).result

theorem map {x x' : Logged α} (h : InStep os os' x x') {f f' : α → β}
    (hf : ∀ a a', a == a' → f a == f' a') :
    InStep os os' (x >>= fun a => pure (f a)) (x' >>= fun a => pure (f' a)) := by
  have halike : (x >>= fun a => pure (f a)).Alike (x' >>= fun a => pure (f' a)) :=
    h.alike.bind fun a a' ha => ⟨rfl, .ok (hf a a' ha)⟩
  refine ⟨halike.records_eq, ?_⟩
  rw [result_bind, result_bind]
  exact h.result.map hf

/-- The parts are given by what `bare` leaves of them, and are in step one by one. -/
theorem mapM {δ : Type} {outcomes : γ → List Outcome} {part : γ → Logged β} {bare : γ → δ}
    (hpart : ∀ a a', bare a = bare a' → InStep (outcomes a) (outcomes a') (part a) (part a'))
    {as as' : List γ} (h : as.map bare = as'.map bare) :
    InStep (inTurn outcomes part as) (inTurn outcomes part as') (as.mapM part) (as'.mapM part) := by
  induction as generalizing as' with
  | nil =>
    obtain rfl := List.map_eq_nil_iff.1 h.symm
    exact ⟨rfl, .ok nil_beq_nil nil_beq_nil⟩
  | cons a as ih =>
    obtain ⟨a', as', rfl, ha, has⟩ := List.map_eq_cons_iff.1 h.symm
    rw [List.mapM_cons, List.mapM_cons]
    refine (hpart a a' ha.symm).bind fun b b' hb => (ih has.symm).map fun bs bs' hbs => ?_
    rw [List.cons_beq_cons, hb, hbs]
    rfl

end InStep

end Logged

def FieldOutline.outcomes (around : ReportKind) (ctx : BuildContext) (f : FieldOutline) :
    List Outcome :=
  [.field <$> f.build around ctx]

def ForestOutline.outcomes (around : ReportKind) (ctx : BuildContext) :
    ForestOutline → List Outcome
  | .nil => []
  | .leaf f rest =>
    followedBy (f.outcomes around ctx) (f.build around ctx) fun _ => outcomes around ctx rest
  | .node c children rest =>
    followedBy (outcomes around ctx children) (build around ctx children) fun inner =>
      followedBy [.collection <$> c.build inner] (c.build inner) fun _ => outcomes around ctx rest

def ReportOutline.outcomes (ctx : BuildContext) (r : ReportOutline) : List Outcome :=
  followedBy (ForestOutline.outcomes r.kind ctx r.children)
    (ForestOutline.build r.kind ctx r.children) fun children =>
      [.report <$> (Report.build r.kind r.id children).result]

def ApplicationOutline.outcomes (ctx : BuildContext) (a : ApplicationOutline) : List Outcome :=
  followedBy (inTurn (ReportOutline.outcomes ctx) (ReportOutline.build · ctx) a.reports)
    (a.reports.mapM (ReportOutline.build · ctx)).result fun reports =>
      [.application <$> Application.build a.usage reports]

def Descriptor.outcomes (apps : List ApplicationOutline) (ctx : BuildContext) : List Outcome :=
  followedBy (inTurn (ApplicationOutline.outcomes ctx) (ApplicationOutline.build · ctx) apps)
    (apps.mapM (ApplicationOutline.build · ctx)).result fun applications =>
      [.descriptor <$> Descriptor.build applications]

end ReportDescriptor
