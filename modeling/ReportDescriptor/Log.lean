import ReportDescriptor.Item.Text
import ReportDescriptor.Layout.Edit

/-!
# The log

Building and writing a descriptor leaves a record of what was done. A computation that may fail
keeps the records made up to the fault.
-/

namespace ReportDescriptor

inductive LogLevel
  | debug
  | trace
deriving DecidableEq

def LogLevel.label : LogLevel → String
  | debug => "debug"
  | trace => "trace"

inductive LogRecord
  | layingOut (kind : ReportKind) (id : UInt8)
  | bitsBefore (bits : UInt32)
  | overspan (r : Relocation)
  | edit (e : Layout.Edit)
  | bitsAfter (bits : UInt32)
  /-- So many variables of a page have come to share a main item. -/
  | combining (count : Nat) (page : UInt16)
  | eliding (item : ShortItem)
  | descriptorLength (bytes : Nat)
deriving DecidableEq

namespace LogRecord

def level : LogRecord → LogLevel
  | layingOut .. | edit _ | combining .. => .debug
  | bitsBefore _ | overspan _ | bitsAfter _ | eliding _ | descriptorLength _ => .trace

def message : LogRecord → String
  | layingOut kind id => s!"laying out {kind.label} report {id.toNat}"
  | bitsBefore bits => s!"layout: {bits.toNat} bits before correction"
  | overspan r =>
    s!"leaf {r.index} at bit {r.offset.toNat} overspans, " ++
      s!"using {r.width.bits} bits after {r.pad.val} bits of padding"
  | edit (.grow index old new) => s!"growing leaf {index} from {old.bits} to {new.bits} bits"
  | edit (.insertPadding width index) =>
    s!"inserting {width.bits} bits of padding before leaf {index}"
  | edit (.appendPadding width total) =>
    s!"appending {width.bits} bits of padding to reach {total.toNat} bits"
  | edit (.mergePadding index combined) =>
    s!"merging padding leaves {index} and {index + 1} into {combined.bits} bits"
  | bitsAfter bits => s!"layout: {bits.toNat} bits after correction"
  | combining count page => s!"combining {count} variables on usage page {Hex.number 4 page.toNat}"
  | eliding item => s!"eliding redundant {item.text}"
  | descriptorLength bytes => s!"report descriptor is {bytes} bytes"

def text (r : LogRecord) : String :=
  s!"{r.level.label}: {r.message}"

def edit? : LogRecord → Option Layout.Edit
  | edit e => some e
  | _ => none

theorem eq_of_edit? {r : LogRecord} {e : Layout.Edit} (h : r.edit? = some e) : r = .edit e := by
  cases r with
  | edit e' => rw [Option.some.inj h]
  | _ => cases h

end LogRecord

/-- A result, or the fault that prevented it, and the records made on the way. -/
structure Logged (α : Type) where
  records : List LogRecord
  result : Except Error α

namespace Logged

variable {α β : Type}

def ofExcept (result : Except Error α) : Logged α :=
  ⟨[], result⟩

def write (records : List LogRecord) : Logged PUnit :=
  ⟨records, .ok ⟨⟩⟩

instance : Monad Logged where
  pure a := ⟨[], .ok a⟩
  bind x f :=
    match x.result with
    | .ok a => ⟨x.records ++ (f a).records, (f a).result⟩
    | .error e => ⟨x.records, .error e⟩

instance : MonadLift (Except Error) Logged := ⟨ofExcept⟩

/-- Turns a fault into a value. -/
def attempt (x : Logged α) : Logged (Except Error α) :=
  ⟨x.records, .ok x.result⟩

@[ext] theorem ext {x y : Logged α} (hr : x.records = y.records) (h : x.result = y.result) :
    x = y := by
  cases x
  cases y
  cases hr
  cases h
  rfl

@[simp] theorem pure_def (a : α) : (pure a : Logged α) = ⟨[], .ok a⟩ := rfl

@[simp] theorem bind_ok (rs : List LogRecord) (a : α) (f : α → Logged β) :
    (Logged.mk rs (.ok a) >>= f) = ⟨rs ++ (f a).records, (f a).result⟩ := rfl

@[simp] theorem bind_error (rs : List LogRecord) (e : Error) (f : α → Logged β) :
    (Logged.mk rs (.error e) >>= f) = ⟨rs, .error e⟩ := rfl

instance : LawfulMonad Logged := LawfulMonad.mk' Logged
  (fun x => by
    obtain ⟨rs, r⟩ := x
    cases r with
    | error e => rfl
    | ok a => exact congrArg (Logged.mk · (.ok a)) (List.append_nil rs))
  (fun _ _ => rfl)
  (fun x f g => by
    obtain ⟨rs, r⟩ := x
    cases r with
    | error e => rfl
    | ok a =>
      cases hf : f a with
      | mk qs q =>
        cases q with
        | error e => simp [hf]
        | ok b => simp [hf, List.append_assoc])

theorem result_bind (x : Logged α) (f : α → Logged β) :
    (x >>= f).result = x.result >>= fun a => (f a).result := by
  obtain ⟨records, r⟩ := x
  cases r <;> rfl

theorem result_map (f : α → β) (x : Logged α) : (f <$> x).result = f <$> x.result := by
  obtain ⟨records, r⟩ := x
  cases r <;> rfl

/-- What comes next only depends on the result it is given. -/
theorem bind_congr {x : Logged α} {f g : α → Logged β} (h : ∀ a, x.result = .ok a → f a = g a) :
    x >>= f = x >>= g := by
  obtain ⟨records, r⟩ := x
  cases r with
  | error e => rfl
  | ok a => rw [bind_ok, bind_ok, h a rfl]

end Logged

end ReportDescriptor
