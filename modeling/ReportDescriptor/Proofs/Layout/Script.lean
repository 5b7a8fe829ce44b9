import ReportDescriptor.Proofs.Layout.Checked
import ReportDescriptor.Proofs.Sample
import ReportDescriptor.Proofs.Text

/-!
# The log as an edit script

A reader of the log who has the fields of a report in order, and nothing of the collections around
them, can follow the layout: each record of a change names a change to the list of fields. Here
such a reader replays the records, and refuses one that is out of range or quotes a width or a
total that is not the actual one, which for totals is a word. No record of a layout is refused, and
the replay ends at the fields of the report.
-/

namespace ReportDescriptor

namespace Layout

namespace Edit

/-- The change that an edit makes to a list of leaves, if what it says of the leaves is true. -/
def replay? (ls : List Leaf) : Edit → Option (List Leaf)
  | grow i old new => do
    let l ← ls[i]?
    if l.size.requested = old ∧ old.bits < new.bits then some (ls.set i (l.withRequested new))
    else none
  | insertPadding w i =>
    if i < ls.length then some (ls.take i ++ .padding w :: ls.drop i) else none
  | appendPadding w n =>
    if UInt32.ofNat (total Leaf.bits ls + w.bits) = n then some (ls ++ [.padding w]) else none
  | mergePadding i combined =>
    match ls[i]?, ls[i + 1]? with
    | some (.padding v), some (.padding w) =>
      if v.bits + w.bits = combined.bits then
        some ((ls.set i (.padding combined)).eraseIdx (i + 1))
      else none
    | _, _ => none

/-- One edit after the other, each of the leaves that the one before it has left. -/
def replayAll? (ls : List Leaf) (es : List Edit) : Option (List Leaf) :=
  es.foldlM replay? ls

@[simp] theorem replayAll?_nil (ls : List Leaf) : replayAll? ls [] = some ls := rfl

@[simp] theorem replayAll?_singleton (ls : List Leaf) (e : Edit) :
    replayAll? ls [e] = replay? ls e := by
  simp [replayAll?]

theorem replayAll?_append (ls : List Leaf) (es es' : List Edit) :
    replayAll? ls (es ++ es') = (replayAll? ls es).bind (replayAll? · es') :=
  List.foldlM_append

variable {pre post : List Leaf}

theorem replay?_grow {l : Leaf} {new : BitWidth} (h : l.size.requested.bits < new.bits) :
    replay? (pre ++ l :: post) (.grow pre.length l.size.requested new) =
      some (pre ++ l.withRequested new :: post) := by
  simp [replay?, h]

theorem replay?_insertPadding (w : BitWidth) (l : Leaf) :
    replay? (pre ++ l :: post) (.insertPadding w pre.length) =
      some (pre ++ .padding w :: l :: post) := by
  simp [replay?]

theorem replay?_mergePadding {v w combined : BitWidth} (h : combined.bits = v.bits + w.bits) :
    replay? (pre ++ .padding v :: .padding w :: post) (.mergePadding pre.length combined) =
      some (pre ++ .padding combined :: post) := by
  simp [replay?, h, List.eraseIdx_append_of_length_le]

/-- Growing a field only up to the width it already has is no edit. -/
theorem replayAll?_growth {l : Leaf} {w : BitWidth} (h : l.size.requested.bits ≤ w.bits) :
    replayAll? (pre ++ l :: post) (if l.size.requested = w then []
      else [.grow pre.length l.size.requested w]) = some (pre ++ l.withRequested w :: post) := by
  by_cases hw : l.size.requested = w
  · rw [if_pos hw, replayAll?_nil, ← hw, Leaf.withRequested_requested]
  · have hne : l.size.requested.bits ≠ w.bits := fun hbits => hw (BitWidth.ext hbits)
    rw [if_neg hw, replayAll?_singleton, replay?_grow (by omega)]

theorem replayAll?_padding (pad : Fin 8) (hpad : pad.val ≤ 32) (l : Leaf) :
    replayAll? (pre ++ l :: post) (if h : 1 ≤ pad.val then
      [.insertPadding ⟨pad, h, hpad⟩ pre.length] else []) =
        some (pre ++ padBefore pad ++ l :: post) := by
  rw [padBefore]
  by_cases h : 1 ≤ pad.val
  · rw [dif_pos h, dif_pos h, replayAll?_singleton, replay?_insertPadding, List.append_assoc,
      List.singleton_append]
  · rw [dif_neg h, dif_neg h, replayAll?_nil, List.append_nil]

end Edit

/-- The records that a change of a forest leaves: those at the level of edits are edits, and a
replay of them leads from the fields before the change to the fields after it. -/
structure Scripted (f : FieldForest) (out : List LogRecord × FieldForest) : Prop where
  debug_eq : out.1.filter (·.level = .debug) = (out.1.filterMap LogRecord.edit?).map .edit
  replay_eq : Edit.replayAll? f.leaves (out.1.filterMap LogRecord.edit?) = some out.2.leaves

namespace Scripted

theorem nothing (f : FieldForest) : Scripted f ([], f) := ⟨rfl, rfl⟩

theorem of_trace {r : LogRecord} (h : r.level = .trace) (f : FieldForest) :
    Scripted f ([r], f) := by
  have hedit : r.edit? = none := by cases r <;> first | rfl | cases h
  constructor
  · simp [h, hedit]
  · simp [hedit]

theorem trans {f : FieldForest} {p q : List LogRecord × FieldForest} (hp : Scripted f p)
    (hq : Scripted p.2 q) : Scripted f (p.1 ++ q.1, q.2) where
  debug_eq := by
    rw [List.filter_append, List.filterMap_append, List.map_append, hp.debug_eq, hq.debug_eq]
  replay_eq := by
    rw [List.filterMap_append, Edit.replayAll?_append, hp.replay_eq]
    exact hq.replay_eq

theorem of_edits {f g : FieldForest} {es : List Edit}
    (h : Edit.replayAll? f.leaves es = some g.leaves) : Scripted f (es.map .edit, g) := by
  have hedits : (es.map LogRecord.edit).filterMap LogRecord.edit? = es := by
    rw [List.filterMap_map]
    exact List.filterMap_some
  have hdebug : (es.map LogRecord.edit).filter (·.level = .debug) = es.map .edit := by
    refine List.filter_eq_self.2 fun r hr => ?_
    obtain ⟨e, -, rfl⟩ := List.mem_map.1 hr
    rfl
  exact ⟨by rw [hedits, hdebug], by rwa [hedits]⟩

end Scripted

variable {change? : FieldForest → Option (List LogRecord × FieldForest)} {f g : FieldForest}
  {records : List LogRecord}

theorem scripted_settle (hstep : ∀ f out, change? f = some out → Scripted f out) (fuel : Nat)
    (f : FieldForest) : Scripted f (settle change? fuel f) :=
  settle_of_trans .nothing (fun _ _ _ hp hq => hp.trans hq) hstep fuel f

/-- The growth comes first, and the padding goes before the leaf that has grown. -/
theorem scripted_of_relocate? (h : relocate? f = some (records, g)) :
    Scripted f (records, g) := by
  obtain ⟨pre, l, post, w, pad, es, hleaves, -, -, hfit, hes, rfl, rfl⟩ := of_relocate? h
  have hpadded := Edit.leaves_padding (Edit.leaves_growth hleaves w) pad
  rw [← Edit.applyAll_append, ← hes] at hpadded
  have hwidth := (Relocation.of_fitting? hfit).1
  have hreplay : Edit.replayAll? f.leaves es = some (Edit.applyAll f es).leaves := by
    rw [hpadded, hleaves, hes, Edit.replayAll?_append, Edit.replayAll?_growth hwidth,
      Option.bind_some, Edit.replayAll?_padding pad (by omega)]
  exact (Scripted.of_trace rfl f).trans (.of_edits hreplay)

theorem scripted_of_merge? (h : merge? f = some (records, g)) : Scripted f (records, g) := by
  obtain ⟨pre, u, v, post, w, hleaves, hbits, -, rfl, rfl⟩ := of_merge? h
  have hreplay : Edit.replayAll? f.leaves [.mergePadding pre.length w] =
      some (Edit.apply f (.mergePadding pre.length w)).leaves := by
    rw [Edit.leaves_mergePadding hleaves, hleaves, Edit.replayAll?_singleton,
      Edit.replay?_mergePadding hbits]
    rfl
  exact .of_edits hreplay

theorem scripted_alignToByte (f : FieldForest) : Scripted f (alignToByte f) := by
  by_cases h : f.bits % 8 = 0
  · rw [alignToByte, dif_pos h]
    exact .nothing f
  · have hreplay (w : BitWidth) :
        Edit.replayAll? f.leaves [.appendPadding w (UInt32.ofNat (f.bits + w.bits))] =
          some (Edit.apply f (.appendPadding w (UInt32.ofNat (f.bits + w.bits)))).leaves := by
      rw [Edit.leaves_appendPadding, Edit.replayAll?_singleton]
      exact if_pos rfl
    rw [alignToByte, dif_neg h]
    exact .of_edits (hreplay _)

theorem scripted_layout (f : FieldForest) : Scripted f (layout f) := by
  have hmoved : Scripted f (correctOverspans f) :=
    scripted_settle (fun _ _ h => scripted_of_relocate? h) _ f
  have haligned := scripted_alignToByte (correctOverspans f).2
  have hmerged : Scripted (alignToByte (correctOverspans f).2).2
      (coalescePadding (alignToByte (correctOverspans f).2).2) :=
    scripted_settle (fun _ _ h => scripted_of_merge? h) _ _
  have hbefore : Scripted f ([.bitsBefore (UInt32.ofNat f.bits)], f) := .of_trace rfl f
  exact (((hbefore.trans hmoved).trans haligned).trans hmerged).trans (.of_trace rfl _)

theorem notMem_correctOverspans (f : FieldForest) (w : BitWidth) (n : UInt32) :
    .edit (.appendPadding w n) ∉ (correctOverspans f).1 := by
  have hmoved : ∀ r ∈ (correctOverspans f).1, r ≠ .edit (.appendPadding w n) := by
    refine forall_mem_settle (fun g out hstep r hr => ?_) _ f
    obtain ⟨pre, l, post, w', pad, es, -, -, -, -, rfl, hrecords, -⟩ := of_relocate? hstep
    rw [hrecords, List.mem_cons, List.mem_map] at hr
    rintro rfl
    rcases hr with hr | ⟨e, he, hr⟩
    · cases hr
    · obtain rfl := LogRecord.edit.inj hr
      rw [List.mem_append] at he
      rcases he with he | he <;> split at he <;> simp at he
  exact fun h => hmoved _ h rfl

theorem notMem_coalescePadding (f : FieldForest) (w : BitWidth) (n : UInt32) :
    .edit (.appendPadding w n) ∉ (coalescePadding f).1 := by
  have hmerged : ∀ r ∈ (coalescePadding f).1, r ≠ .edit (.appendPadding w n) := by
    refine forall_mem_settle (fun g out hstep r hr => ?_) _ f
    obtain ⟨pre, u, v, post, w', -, -, -, hrecords, -⟩ := of_merge? hstep
    rw [hrecords, List.mem_singleton] at hr
    rintro rfl
    cases hr
  exact fun h => hmerged _ h rfl

theorem toNat_of_mem_alignToByte {f : FieldForest} {w : BitWidth} {n : UInt32}
    (h : .edit (.appendPadding w n) ∈ (alignToByte f).1) :
    n.toNat = (alignToByte f).2.bits % UInt32.size := by
  rw [alignToByte] at h
  by_cases haligned : f.bits % 8 = 0
  · rw [dif_pos haligned] at h
    cases h
  · obtain ⟨w', hw, hleaves⟩ := leaves_alignToByte f haligned
    rw [dif_neg haligned] at h
    simp only [List.mem_singleton, LogRecord.edit.injEq, Edit.appendPadding.injEq] at h
    obtain ⟨-, rfl⟩ := h
    have hbits : (alignToByte f).2.bits = f.bits + (8 - f.bits % 8) := by
      rw [FieldForest.bits, hleaves, total_append, total_cons, total_nil, Leaf.bits_padding, hw]
      rfl
    rw [hbits]
    exact UInt32.toNat_ofNat'

/-- Only the pass that fills up the last byte quotes a total, and it is that of the report, which
the pass after it keeps. -/
theorem toNat_of_mem_layout {f : FieldForest} {w : BitWidth} {n : UInt32}
    (h : .edit (.appendPadding w n) ∈ (layout f).1) :
    n.toNat = (layout f).2.bits % UInt32.size := by
  have hmem : .edit (.appendPadding w n) ∈ (alignToByte (correctOverspans f).2).1 := by
    simp only [layout, List.mem_append, List.mem_cons, List.not_mem_nil, or_false,
      notMem_correctOverspans, notMem_coalescePadding, reduceCtorEq, false_or] at h
    exact h
  rw [toNat_of_mem_alignToByte hmem, layout, bits_coalescePadding]

example : (layout (Sample.fields .input)).1.filterMap LogRecord.edit? =
    [.grow 2 ⟨31, by omega, by omega⟩ .max, .insertPadding ⟨2, by omega, by omega⟩ 2,
      .appendPadding ⟨3, by omega, by omega⟩ 120,
      .mergePadding 5 ⟨8, by omega, by omega⟩] := by
  decide

end Layout

/-! ## Edits read from the messages -/

namespace Layout.Edit

/-- What the record of an edit says. -/
def words : Edit → List String
  | grow i old new =>
    ["growing", "leaf", i.repr, "from", old.bits.repr, "to", new.bits.repr, "bits"]
  | insertPadding w i =>
    ["inserting", w.bits.repr, "bits", "of", "padding", "before", "leaf", i.repr]
  | appendPadding w n =>
    ["appending", w.bits.repr, "bits", "of", "padding", "to", "reach", n.toNat.repr, "bits"]
  | mergePadding i combined =>
    ["merging", "padding", "leaves", i.repr, "and", (i + 1).repr, "into", combined.bits.repr,
      "bits"]

def width? (s : String) : Option BitWidth :=
  (number? s).bind fun n => (BitWidth.ofNat n).toOption

@[simp] theorem width?_repr (w : BitWidth) : width? w.bits.repr = some w := by
  rw [width?, number?_repr, Option.bind_some, BitWidth.ofNat_bits]
  rfl

def word? (s : String) : Option UInt32 :=
  (number? s).bind fun n => if n < UInt32.size then some (UInt32.ofNat n) else none

@[simp] theorem word?_repr (n : UInt32) : word? n.toNat.repr = some n := by
  rw [word?, number?_repr, Option.bind_some, if_pos n.toNat_lt, UInt32.ofNat_toNat]

/-- Leaves that are merged have to be neighbours. -/
def ofWords? : List String → Option Edit
  | ["growing", "leaf", i, "from", old, "to", new, "bits"] =>
    return .grow (← number? i) (← width? old) (← width? new)
  | ["inserting", w, "bits", "of", "padding", "before", "leaf", i] =>
    return .insertPadding (← width? w) (← number? i)
  | ["appending", w, "bits", "of", "padding", "to", "reach", n, "bits"] =>
    return .appendPadding (← width? w) (← word? n)
  | ["merging", "padding", "leaves", i, "and", j, "into", combined, "bits"] => do
    let first ← number? i
    let second ← number? j
    if second = first + 1 then return .mergePadding first (← width? combined) else none
  | _ => none

theorem ofWords?_words (e : Edit) : ofWords? e.words = some e := by
  cases e <;> simp [ofWords?, words]

theorem message_eq (e : Edit) : (LogRecord.edit e).message = " ".intercalate e.words := by
  rw [← String.toList_inj]
  cases e with
  | grow i old new =>
    change ("growing leaf " ++ i.repr ++ " from " ++ old.bits.repr ++ " to " ++ new.bits.repr ++
      " bits").toList = _
    simp [words]
  | insertPadding w i =>
    change ("inserting " ++ w.bits.repr ++ " bits of padding before leaf " ++ i.repr).toList = _
    simp [words]
  | appendPadding w n =>
    change ("appending " ++ w.bits.repr ++ " bits of padding to reach " ++ n.toNat.repr ++
      " bits").toList = _
    simp [words]
  | mergePadding i combined =>
    change ("merging padding leaves " ++ i.repr ++ " and " ++ (i + 1).repr ++ " into " ++
      combined.bits.repr ++ " bits").toList = _
    simp [words]

/-- The edit that a message of the log tells of. -/
def read? (message : String) : Option Edit :=
  ofWords? (parts ' ' message)

theorem read?_message (e : Edit) : read? (LogRecord.edit e).message = some e := by
  have hblank : ∀ w ∈ e.words, ' ' ∉ w.toList := by cases e <;> simp [words, notMem_toDigits]
  have hne : e.words ≠ [] := by cases e <;> simp [words]
  have hparts : parts ' ' (" ".intercalate e.words) = e.words := parts_intercalate hblank hne
  rw [read?, message_eq, hparts, ofWords?_words]

theorem filterMap_read?_map (es : List Edit) :
    (es.map LogRecord.edit).filterMap (read? ·.message) = es := by
  have hread : (fun r : LogRecord => read? r.message) ∘ LogRecord.edit = some :=
    funext read?_message
  rw [List.filterMap_map, hread, List.filterMap_some]

end Layout.Edit

namespace Report

open Layout

theorem read?_layingOut (kind : ReportKind) (id : UInt8) :
    Edit.read? (LogRecord.layingOut kind id).message = none := by
  have hmessage : (LogRecord.layingOut kind id).message =
      " ".intercalate ["laying", "out", kind.label, "report", id.toNat.repr] := by
    rw [← String.toList_inj]
    change ("laying out " ++ kind.label ++ " report " ++ id.toNat.repr).toList = _
    simp
  have hblank : ∀ w ∈ ["laying", "out", kind.label, "report", id.toNat.repr],
      ' ' ∉ w.toList := by
    cases kind <;> simp [ReportKind.label, notMem_toDigits]
  have hparts := parts_intercalate hblank (List.cons_ne_nil _ _)
  rw [Edit.read?, hmessage]
  exact (congrArg Edit.ofWords? hparts).trans (by simp [Edit.ofWords?])

/-- The debug records of a report that can be built are one that names the report and a script of
edits. The script is what their messages say; every edit of it is possible where it stands, with
the widths and the total that it quotes; and it turns the fields that were given, in order, into
those of the report. A total is the number of bits of the report: the number itself where it can be
laid out with no sum too large for a word, and what a word keeps of the number in any case. -/
theorem script_of_build {kind : ReportKind} {id : UInt8} {children : FieldForest} {r : Report}
    (h : (build kind id children).result = .ok r) :
    ∃ script : List Edit,
      (build kind id children).records.filter (·.level = .debug) =
        .layingOut kind id :: script.map .edit ∧
      ((build kind id children).records.filter (·.level = .debug)).filterMap
        (Edit.read? ·.message) = script ∧
      Edit.replayAll? children.leaves script = some r.leaves ∧
      ∀ w n, .appendPadding w n ∈ script → n.toNat = r.bits % UInt32.size ∧
        ∀ checked, Words.build kind id children = .ok checked → n.toNat = r.bits := by
  have hchecked : ∀ checked, Words.build kind id children = .ok checked → r.bits < UInt32.size :=
    fun _ hwords => ((Words.build_eq_ok_iff h).1 hwords).1
  obtain ⟨-, -, -, -, rfl⟩ := build_eq_ok_iff.1 h
  have hlayout := scripted_layout children
  have hdebug : (build kind id children).records.filter (·.level = .debug) =
      .layingOut kind id :: ((layout children).1.filterMap LogRecord.edit?).map .edit := by
    rw [records_of_build h, List.filter_cons_of_pos (by rfl), hlayout.debug_eq]
  refine ⟨_, hdebug, ?_, hlayout.replay_eq, fun w n hmem => ?_⟩
  · rw [hdebug, List.filterMap_cons, read?_layingOut]
    exact Edit.filterMap_read?_map _
  · obtain ⟨record, hrecord, hedit⟩ := List.mem_filterMap.1 hmem
    obtain rfl := LogRecord.eq_of_edit? hedit
    have htotal := toNat_of_mem_layout hrecord
    refine ⟨htotal, fun checked hwords => ?_⟩
    rw [htotal]
    exact Nat.mod_eq_of_lt (hchecked checked hwords)

theorem script_of_build_sample :
    (build .input 1 (Sample.fields .input)).result = .ok (Sample.report .input 1) ∧
      ∃ script : List Edit,
        (build .input 1 (Sample.fields .input)).records.filter (·.level = .debug) =
          .layingOut .input 1 :: script.map .edit ∧
        ((build .input 1 (Sample.fields .input)).records.filter (·.level = .debug)).filterMap
          (Edit.read? ·.message) = script ∧
        Edit.replayAll? (Sample.fields .input).leaves script =
          some (Sample.report .input 1).leaves ∧
        ∀ w n, .appendPadding w n ∈ script → n.toNat = (Sample.report .input 1).bits := by
  have hbuild := Sample.report_of_build .input (by decide : (1 : UInt8) ≠ 0)
  have hwords := Words.build_eq .input 1 (by decide : (Sample.fields .input).leaves.length ≤ 2048)
  obtain ⟨script, hdebug, hread, hreplay, htotal⟩ := script_of_build hbuild
  exact ⟨hbuild, script, hdebug, hread, hreplay, fun w n hmem => (htotal w n hmem).2 _ hwords⟩

end Report

end ReportDescriptor
