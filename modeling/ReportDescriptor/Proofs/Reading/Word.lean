import ReportDescriptor.Flags
import ReportDescriptor.Unit.Basic

/-!
# Reading words

The data of a main item and of a unit item are words with several parts. Reading a word takes it
apart again, and gives back what it was composed of.
-/

namespace ReportDescriptor

namespace DataFlags

/-- Bit 1 of a main item's data tells variables from arrays. -/
def readGrouping (word : Nat) : Grouping :=
  if word.testBit 1 then .variables else .array

/-- The attributes whose bit is one, in the order of their bits. -/
def readAlternates (word : Nat) : List Attribute :=
  Attribute.all.filter fun a => word.testBit a.bit

/-- The word with a grouping and the attributes that `p` selects. -/
def wordOf (g : Grouping) (p : Attribute → Bool) : Nat :=
  (if g = .variables then 2 else 0) + total (fun a => 1 <<< a.bit) (Attribute.all.filter p)

theorem word_eq_wordOf (f : DataFlags) (g : Grouping) :
    f.word g = wordOf g fun a => f.get a = some .alternate := rfl

/-- There are eight attributes, so this is a matter of 512 words. -/
theorem read_wordOf (g : Grouping) (p : Attribute → Bool) :
    wordOf g p < 512 ∧ readGrouping (wordOf g p) = g ∧
      readAlternates (wordOf g p) = Attribute.all.filter p := by
  have hall : ∀ b₀ b₁ b₂ b₃ b₄ b₅ b₆ b₇ : Bool, ∀ q : Attribute → Bool,
      q = (fun a => Attribute.casesOn (motive := fun _ => Bool) a b₀ b₁ b₂ b₃ b₄ b₅ b₆ b₇) →
      wordOf g q < 512 ∧ readGrouping (wordOf g q) = g ∧
        readAlternates (wordOf g q) = Attribute.all.filter q := by
    rintro b₀ b₁ b₂ b₃ b₄ b₅ b₆ b₇ q rfl
    revert b₀ b₁ b₂ b₃ b₄ b₅ b₆ b₇
    cases g <;> decide +kernel
  exact hall (p .modification) (p .relation) (p .wrapping) (p .linearity) (p .preference)
    (p .meaningfulData) (p .volatility) (p .contingent) p (funext fun a => by cases a <;> rfl)

variable (f : DataFlags) (g : Grouping)

theorem word_lt : f.word g < 512 := by
  rw [word_eq_wordOf]
  exact (read_wordOf g _).1

@[simp] theorem toNat_word : (UInt32.ofNat (f.word g)).toNat = f.word g := by
  have h := f.word_lt g
  rw [UInt32.toNat_ofNat']
  omega

@[simp] theorem readGrouping_word : readGrouping (f.word g) = g := by
  rw [word_eq_wordOf]
  exact (read_wordOf g _).2.1

@[simp] theorem readAlternates_word : readAlternates (f.word g) = f.alternates := by
  rw [word_eq_wordOf]
  exact (read_wordOf g _).2.2

end DataFlags

theorem Exponent.ofCode_eq_of_mod {n : Nat} {e : Exponent} (h : n % 16 = e.code) :
    ofCode n = e := by
  apply code_inj
  rw [code_ofCode, h]

def UnitSystem.ofCode? (n : Nat) : Option UnitSystem :=
  [none, siLinear, siRotation, englishLinear, englishRotation, vendor].find? (·.code = n)

@[simp] theorem UnitSystem.ofCode?_code (s : UnitSystem) : ofCode? s.code = some s := by
  cases s <;> rfl

namespace PhysicalUnit

/-- The system stands in the lowest four bits, the exponents in the next ones. -/
def ofWord? (w : Nat) : Option PhysicalUnit :=
  (UnitSystem.ofCode? (w % 16)).map fun system =>
    ⟨system, ⟨.ofCode (w / 0x10), .ofCode (w / 0x100), .ofCode (w / 0x1000),
      .ofCode (w / 0x10000), .ofCode (w / 0x100000), .ofCode (w / 0x1000000)⟩⟩

theorem ofWord?_word (u : PhysicalUnit) : ofWord? u.word = some u := by
  have hs := u.system.code_lt
  have h₁ := u.exponents.length.code_lt
  have h₂ := u.exponents.mass.code_lt
  have h₃ := u.exponents.time.code_lt
  have h₄ := u.exponents.temperature.code_lt
  have h₅ := u.exponents.current.code_lt
  have h₆ := u.exponents.luminousIntensity.code_lt
  have hw : u.word = u.system.code + 16 * (u.exponents.length.code +
      16 * (u.exponents.mass.code + 16 * (u.exponents.time.code +
        16 * (u.exponents.temperature.code + 16 * (u.exponents.current.code +
          16 * u.exponents.luminousIntensity.code))))) := rfl
  have hsystem : u.word % 16 = u.system.code := by omega
  rw [ofWord?, hsystem, UnitSystem.ofCode?_code, Option.map_some,
    Exponent.ofCode_eq_of_mod (e := u.exponents.length) (by omega),
    Exponent.ofCode_eq_of_mod (e := u.exponents.mass) (by omega),
    Exponent.ofCode_eq_of_mod (e := u.exponents.time) (by omega),
    Exponent.ofCode_eq_of_mod (e := u.exponents.temperature) (by omega),
    Exponent.ofCode_eq_of_mod (e := u.exponents.current) (by omega),
    Exponent.ofCode_eq_of_mod (e := u.exponents.luminousIntensity) (by omega)]

@[simp] theorem toNat_word (u : PhysicalUnit) : (UInt32.ofNat u.word).toNat = u.word := by
  have h := u.word_lt
  rw [UInt32.toNat_ofNat']
  omega

end PhysicalUnit

end ReportDescriptor
