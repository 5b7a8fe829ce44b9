import ReportDescriptor.Forest.Path

/-!
# Scans

A scan goes through the leaves of a forest in depth-first order, carries a state along, and puts
a list of new leaves in the place of each leaf. The shape around the leaves stays.
-/

namespace ReportDescriptor

namespace Forest

variable {β β' α γ γ' σ τ : Type}

@[simp] theorem append_assoc (f g h : Forest β α) : f ++ g ++ h = f ++ (g ++ h) := by
  induction f with
  | nil => rfl
  | leaf a rest ih => rw [leaf_append, leaf_append, leaf_append, ih]
  | node b children rest _ ih => rw [node_append, node_append, node_append, ih]

@[simp] theorem prepend_nil (f : Forest β α) : prepend [] f = f := rfl

@[simp] theorem prepend_cons (a : α) (as : List α) (f : Forest β α) :
    prepend (a :: as) f = leaf a (prepend as f) := rfl

theorem prepend_append (as bs : List α) (f : Forest β α) :
    prepend (as ++ bs) f = prepend as (prepend bs f) :=
  List.foldr_append

@[simp] theorem prepend_append_forest (as : List α) (f g : Forest β α) :
    prepend as f ++ g = prepend as (f ++ g) := by
  induction as with
  | nil => rfl
  | cons a as ih => rw [prepend_cons, leaf_append, ih, prepend_cons]

/-- The new leaves that a scan makes of a list of leaves. -/
def scanList (step : σ → α → σ) (out : σ → α → List γ) : σ → List α → List γ
  | _, [] => []
  | s, a :: as => out s a ++ scanList step out (step s a) as

def scan (head : β → β') (step : σ → α → σ) (out : σ → α → List γ) :
    σ → Forest β α → Forest β' γ
  | _, nil => nil
  | s, leaf a rest => prepend (out s a) (scan head step out (step s a) rest)
  | s, node b children rest =>
    node (head b) (scan head step out s children)
      (scan head step out (children.leaves.foldl step s) rest)

def mapLeaves (m : α → γ) : Forest β α → Forest β γ
  | nil => nil
  | leaf a rest => leaf (m a) (mapLeaves m rest)
  | node b children rest => node b (mapLeaves m children) (mapLeaves m rest)

@[simp] theorem mapLeaves_append (m : α → γ) (f g : Forest β α) :
    (f ++ g).mapLeaves m = f.mapLeaves m ++ g.mapLeaves m := by
  induction f with
  | nil => rfl
  | leaf a rest ih => simp only [leaf_append, mapLeaves, ih]
  | node b children rest _ ih => simp only [node_append, mapLeaves, ih]

@[simp] theorem mapLeaves_prepend (m : α → γ) (as : List α) (f : Forest β α) :
    (prepend as f).mapLeaves m = prepend (as.map m) (f.mapLeaves m) := by
  induction as with
  | nil => rfl
  | cons a as ih => rw [prepend_cons, mapLeaves, ih, List.map_cons, prepend_cons]

variable (head : β → β') (step : σ → α → σ) (out : σ → α → List γ)

theorem scan_append (s : σ) (f g : Forest β α) :
    scan head step out s (f ++ g) =
      scan head step out s f ++ scan head step out (f.leaves.foldl step s) g := by
  induction f generalizing s with
  | nil => rfl
  | leaf a rest ih =>
    rw [leaf_append, scan, scan, ih, prepend_append_forest, leaves_leaf, List.foldl_cons]
  | node b children rest _ ih =>
    rw [node_append, scan, scan, ih, node_append, leaves_node, List.foldl_append]

theorem scan_prepend_nil (s : σ) (as : List α) :
    scan head step out s (prepend as (nil : Forest β α)) =
      prepend (scanList step out s as) nil := by
  induction as generalizing s with
  | nil => rfl
  | cons a as ih => rw [prepend_cons, scan, ih, scanList, prepend_append]

variable {head step out}

/-- Two scans whose states stay related make the same of a forest, up to a map, if they make the
same of each of its leaves. -/
theorem mapLeaves_scan {step' : τ → α → τ} {out' : τ → α → List γ'} {m : γ → γ'}
    {R : σ → τ → Prop} {f : Forest β α} {s : σ} {t : τ}
    (hstep : ∀ s t a, R s t → R (step s a) (step' t a))
    (hout : ∀ s t, ∀ a ∈ f.leaves, R s t → (out s a).map m = out' t a) (hst : R s t) :
    (scan head step out s f).mapLeaves m = scan head step' out' t f := by
  have hfold : ∀ (as : List α) s t, R s t → R (as.foldl step s) (as.foldl step' t) := by
    intro as
    induction as with
    | nil => exact fun _ _ h => h
    | cons a as ih => exact fun s t h => ih _ _ (hstep s t a h)
  induction f generalizing s t with
  | nil => rfl
  | leaf a rest ih =>
    have hrest := ih (fun s t b hb => hout s t b (List.mem_cons_of_mem a hb)) (hstep s t a hst)
    rw [scan, scan, mapLeaves_prepend, hrest, hout s t a List.mem_cons_self hst]
  | node b children rest ihc ihr =>
    have hchildren := ihc (fun s t a ha => hout s t a (List.mem_append_left _ ha)) hst
    have hrest := ihr (fun s t a ha => hout s t a (List.mem_append_right _ ha))
      (hfold children.leaves s t hst)
    rw [scan, scan, mapLeaves, hchildren, hrest]

end Forest

end ReportDescriptor
