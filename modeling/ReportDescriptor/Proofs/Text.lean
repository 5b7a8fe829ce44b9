import ReportDescriptor.Text.Hex

/-!
# Text read back

Parts are joined with a character that is in none of them, numbers are written in decimal and bytes
in hexadecimal digits. Each of them is read back from what is written.
-/

namespace ReportDescriptor

/-! ## Parts of a text -/

/-- The parts of a text, which a character keeps apart. -/
def parts (c : Char) (s : String) : List String :=
  (s.split c).toList.map (·.copy)

theorem parts_intercalate {c : Char} {ws : List String} (h : ∀ w ∈ ws, c ∉ w.toList)
    (hne : ws ≠ []) : parts c ((String.singleton c).intercalate ws) = ws :=
  (String.toList_split_intercalate h).trans (if_neg hne)

/-- A character that is in none of some texts, nor in what they are joined with, is not in the
joint text. -/
theorem notMem_intercalate {c : Char} {s : String} {ws : List String} (hs : c ∉ s.toList)
    (hws : ∀ w ∈ ws, c ∉ w.toList) : c ∉ (s.intercalate ws).toList := by
  induction ws with
  | nil => simp
  | cons w ws ih =>
    rw [List.forall_mem_cons] at hws
    cases ws with
    | nil => simpa using hws.1
    | cons v ws =>
      rw [String.intercalate_cons_cons, String.toList_append, String.toList_append]
      simp only [List.mem_append, not_or]
      exact ⟨⟨hws.1, hs⟩, ih hws.2⟩

/-- Between words without blanks, blanks are all that a filter takes away. -/
theorem filter_ne_blank_intercalate {ws : List String} (h : ∀ w ∈ ws, ' ' ∉ w.toList) :
    (" ".intercalate ws).toList.filter (· ≠ ' ') = ws.flatMap String.toList := by
  induction ws with
  | nil => simp
  | cons w ws ih =>
    rw [List.forall_mem_cons] at h
    have hw : w.toList.filter (· ≠ ' ') = w.toList := by
      refine List.filter_eq_self.2 fun c hc => ?_
      exact decide_eq_true fun hblank => h.1 (hblank ▸ hc)
    cases ws with
    | nil => simpa using hw
    | cons v ws =>
      rw [String.intercalate_cons_cons, String.toList_append, String.toList_append,
        List.filter_append, List.filter_append, ih h.2, hw]
      simp

/-! ## Decimal digits -/

/-- The number that a text of decimal digits stands for. -/
def number? (s : String) : Option Nat :=
  if s.toList.all Char.isDigit then some (Nat.ofDigitChars 10 s.toList 0) else none

theorem isDigit_of_mem_toDigits {n : Nat} {c : Char} (h : c ∈ Nat.toDigits 10 n) :
    c.isDigit = true :=
  Nat.isDigit_of_mem_toDigits (by decide) (by decide) h

theorem notMem_toDigits {c : Char} (hc : c.isDigit = false) (n : Nat) : c ∉ Nat.toDigits 10 n := by
  intro h
  exact absurd (isDigit_of_mem_toDigits h) (by simp [hc])

@[simp] theorem number?_repr (n : Nat) : number? n.repr = some n := by
  have hdigits : (Nat.toDigits 10 n).all Char.isDigit = true :=
    List.all_eq_true.2 fun _ hc => isDigit_of_mem_toDigits hc
  rw [number?, Nat.toList_repr, if_pos hdigits, Nat.ofDigitChars_ten_toDigits]

/-! ## Hexadecimal digits -/

namespace Hex

/-- The number that a hexadecimal digit stands for. -/
def value? (c : Char) : Option Nat :=
  (List.range 16).find? fun n => n.digitChar = c

/-- The bytes that are written with two digits each. -/
def read? : List Char → Option (List UInt8)
  | [] => some []
  | [_] => none
  | c :: c' :: cs => do
    let high ← value? c
    let low ← value? c'
    return UInt8.ofNat (16 * high + low) :: (← read? cs)

theorem value?_digitChar {n : Nat} (h : n < 16) : value? n.digitChar = some n := by
  have hall : ∀ n < 16, value? n.digitChar = some n := by decide
  exact hall n h

theorem digits_two {n : Nat} (h : n < 256) :
    digits 2 n = [(n / 16).digitChar, (n % 16).digitChar] := by
  by_cases hlt : n < 16
  · rw [digits, Nat.toDigits_of_lt_base hlt, Nat.div_eq_of_lt hlt, Nat.mod_eq_of_lt hlt]
    rfl
  · have hhigh : n / 16 < 16 := by omega
    rw [digits, Nat.toDigits_of_base_le (by decide) (Nat.le_of_not_lt hlt),
      Nat.toDigits_of_lt_base hhigh]
    rfl

/-- All bytes with two digits each. -/
def pairs (bs : List UInt8) : List Char :=
  bs.flatMap fun b => digits 2 b.toNat

theorem read?_pairs (bs : List UInt8) : read? (pairs bs) = some bs := by
  induction bs with
  | nil => rfl
  | cons b bs ih =>
    have hb := b.toNat_lt
    have hhigh : b.toNat / 16 < 16 := by omega
    have hlow : b.toNat % 16 < 16 := by omega
    have hsum : 16 * (b.toNat / 16) + b.toNat % 16 = b.toNat := by omega
    rw [pairs] at ih
    rw [pairs, List.flatMap_cons, digits_two hb, List.cons_append, List.cons_append,
      List.nil_append, read?, value?_digitChar hhigh, value?_digitChar hlow, ih]
    simp only [Option.bind_eq_bind, Option.bind_some, hsum, UInt8.ofNat_toNat, Option.pure_def]

theorem exists_of_mem_toDigits {n : Nat} {c : Char} (h : c ∈ Nat.toDigits 16 n) :
    ∃ k < 16, c = k.digitChar := by
  induction n using Nat.strongRecOn with
  | ind n ih =>
    by_cases hlt : n < 16
    · rw [Nat.toDigits_of_lt_base hlt, List.mem_singleton] at h
      exact ⟨n, hlt, h⟩
    · rw [Nat.toDigits_of_base_le (by decide) (Nat.le_of_not_lt hlt), List.mem_append,
        List.mem_singleton] at h
      rcases h with h | rfl
      · exact ih (n / 16) (by omega) h
      · exact ⟨n % 16, by omega, rfl⟩

theorem exists_of_mem_digits {width n : Nat} {c : Char} (h : c ∈ digits width n) :
    ∃ k < 16, c = k.digitChar := by
  rcases List.mem_append.1 h with h | h
  · exact ⟨0, by decide, (List.mem_replicate.1 h).2⟩
  · exact exists_of_mem_toDigits h

/-- A hexadecimal digit is none of the characters that lay out a listing. -/
theorem notMem_digits {c : Char} (hc : c = ' ' ∨ c = '\n') (width n : Nat) :
    c ∉ digits width n := by
  intro h
  obtain ⟨k, hk, rfl⟩ := exists_of_mem_digits h
  have hall : ∀ k < 16, ¬(k.digitChar = ' ' ∨ k.digitChar = '\n') := by decide
  exact hall k hk hc

theorem notMem_bytes {c : Char} (hc : c = ' ' ∨ c = '\n') (bs : List UInt8) :
    ∀ w ∈ bs.map byte, c ∉ w.toList := by
  intro w hw
  obtain ⟨b, -, rfl⟩ := List.mem_map.1 hw
  rw [byte, String.toList_ofList]
  exact notMem_digits hc 2 _

theorem length_byte (b : UInt8) : (byte b).length = 2 := by
  rw [byte, String.length_ofList, digits_two b.toNat_lt]
  rfl

end Hex

end ReportDescriptor
