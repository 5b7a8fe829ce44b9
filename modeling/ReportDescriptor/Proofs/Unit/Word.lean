import Mathlib.Algebra.Group.Nat.Defs
import ReportDescriptor.Proofs.Except
import ReportDescriptor.Proofs.Item.Codec
import ReportDescriptor.Proofs.Reading.Word

/-!
# Units as words

A unit exists for those exponents that have a code, all six of them. Its word is put together by
shifting seven codes to their places, and none of them reaches into the next. So each code can be
read off the word again, and the word tells the unit.
-/

namespace ReportDescriptor

namespace Exponent

/-- The exponents that have a code of four bits. -/
def InRange (value : Int) : Prop :=
  -8 ≤ value ∧ value ≤ 7

instance (value : Int) : Decidable (InRange value) :=
  inferInstanceAs (Decidable (_ ∧ _))

theorem inRange (e : Exponent) : InRange e.value :=
  ⟨e.neg_eight_le, e.le_seven⟩

theorem ofInt_of_inRange {value : Int} (h : InRange value) (dimension : Option Dimension) :
    ofInt dimension value = .ok ⟨value, h.1, h.2⟩ :=
  dif_pos h

theorem ofInt_of_not_inRange {value : Int} (h : ¬InRange value) (dimension : Option Dimension) :
    ofInt dimension value = .error (.invalidUnit (.exponent dimension value)) :=
  dif_neg h

theorem ofInt_eq_ok_iff {dimension : Option Dimension} {value : Int} {e : Exponent} :
    ofInt dimension value = .ok e ↔ e.value = value := by
  constructor
  · intro h
    by_cases hrange : InRange value
    · rw [ofInt_of_inRange hrange] at h
      exact congrArg Exponent.value (Except.ok.inj h).symm
    · rw [ofInt_of_not_inRange hrange] at h
      cases h
  · rintro rfl
    exact ofInt_of_inRange e.inRange dimension

/-- The lowest four bits of the exponent in two's complement. -/
def nibble (e : Exponent) : UInt8 :=
  UInt8.ofInt e.value &&& 0x0f

theorem toNat_nibble (e : Exponent) : e.nibble.toNat = e.code := by
  have hbyte := LittleEndian.toNat_ofInt_byte e.value
  rw [nibble, UInt8.toNat_and, code]
  change (UInt8.ofInt e.value).toNat &&& (2 ^ 4 - 1) = _
  rw [Nat.and_two_pow_sub_one_eq_mod]
  omega

end Exponent

namespace PhysicalUnit

/-- The first dimension whose exponent has no code. -/
def firstInvalid? (exponents : Dimensions Int) : Option Dimension :=
  Dimension.all.find? fun d => ¬Exponent.InRange (exponents.get d)

theorem ofInts_eq_ok_iff {system : UnitSystem} {exponents : Dimensions Int} {u : PhysicalUnit} :
    ofInts system exponents = .ok u ↔
      u.system = system ∧ ∀ d, (u.exponents.get d).value = exponents.get d := by
  simp only [ofInts, bind_eq_ok_iff, Exponent.ofInt_eq_ok_iff, pure_eq_ok_iff]
  constructor
  · rintro ⟨e₁, h₁, e₂, h₂, e₃, h₃, e₄, h₄, e₅, h₅, e₆, h₆, rfl⟩
    refine ⟨rfl, fun d => ?_⟩
    cases d
    · exact h₁
    · exact h₂
    · exact h₃
    · exact h₄
    · exact h₅
    · exact h₆
  · rintro ⟨rfl, h⟩
    exact ⟨_, h .length, _, h .mass, _, h .time, _, h .temperature, _, h .current, _,
      h .luminousIntensity, rfl⟩

theorem exists_ofInts_iff {system : UnitSystem} {exponents : Dimensions Int} :
    (∃ u, ofInts system exponents = .ok u) ↔ ∀ d, Exponent.InRange (exponents.get d) := by
  simp only [ofInts_eq_ok_iff]
  constructor
  · rintro ⟨u, -, h⟩ d
    rw [← h d]
    exact (u.exponents.get d).inRange
  · intro h
    let e (d : Dimension) : Exponent := ⟨exponents.get d, (h d).1, (h d).2⟩
    refine ⟨⟨system, ⟨e .length, e .mass, e .time, e .temperature, e .current,
      e .luminousIntensity⟩⟩, rfl, fun d => ?_⟩
    cases d <;> rfl

theorem firstInvalid?_eq_none_iff {exponents : Dimensions Int} :
    firstInvalid? exponents = .none ↔ ∀ d, Exponent.InRange (exponents.get d) := by
  simp only [firstInvalid?, List.find?_eq_none, decide_eq_true_eq, Decidable.not_not]
  exact ⟨fun h d => h d d.mem_all, fun h d _ => h d⟩

/-- Of a list of dimensions, the first at fault is the one that stops. -/
theorem mapM_ofInt_eq_error {exponents : Dimensions Int} {ds : List Dimension} {d : Dimension}
    (h : ds.find? (fun d => ¬Exponent.InRange (exponents.get d)) = some d) :
    ds.mapM (fun d => Exponent.ofInt (some d) (exponents.get d)) =
      .error (.invalidUnit (.exponent (some d) (exponents.get d))) := by
  induction ds with
  | nil => cases h
  | cons c ds ih =>
    rw [List.mapM_cons]
    by_cases hc : Exponent.InRange (exponents.get c)
    · rw [List.find?_cons_of_neg (by simpa using hc)] at h
      rw [Exponent.ofInt_of_inRange hc, ok_bind, ih h]
      rfl
    · rw [List.find?_cons_of_pos (by simpa using hc)] at h
      obtain rfl := Option.some.inj h
      rw [Exponent.ofInt_of_not_inRange hc]
      rfl

/-- The dimensions are looked at one after another, before anything is made of them. -/
theorem exists_ofInts_eq (system : UnitSystem) (exponents : Dimensions Int) :
    ∃ k, ofInts system exponents =
      Dimension.all.mapM (fun d => Exponent.ofInt (some d) (exponents.get d)) >>= k := by
  let nth (es : List Exponent) (i : Nat) : Exponent := es.getD i .zero
  refine ⟨fun es => .ok ⟨system, ⟨nth es 0, nth es 1, nth es 2, nth es 3, nth es 4, nth es 5⟩⟩, ?_⟩
  simp only [Dimension.all, List.mapM_cons, List.mapM_nil, bind_assoc, pure_bind]
  rfl

theorem ofInts_eq_error_iff {system : UnitSystem} {exponents : Dimensions Int} {e : Error} :
    ofInts system exponents = .error e ↔ ∃ d, firstInvalid? exponents = some d ∧
      e = .invalidUnit (.exponent (some d) (exponents.get d)) := by
  have hstop {d : Dimension} (hd : firstInvalid? exponents = some d) :
      ofInts system exponents = .error (.invalidUnit (.exponent (some d) (exponents.get d))) := by
    obtain ⟨k, hk⟩ := exists_ofInts_eq system exponents
    rw [hk, mapM_ofInt_eq_error hd]
    rfl
  constructor
  · intro h
    cases hfirst : firstInvalid? exponents with
    | none =>
      have hok : ∃ u, ofInts system exponents = .ok u :=
        exists_ofInts_iff.2 (firstInvalid?_eq_none_iff.1 hfirst)
      obtain ⟨u, hu⟩ := hok
      rw [hu] at h
      cases h
    | some d =>
      rw [hstop hfirst] at h
      exact ⟨d, rfl, (Except.error.inj h).symm⟩
  · rintro ⟨d, hd, rfl⟩
    exact hstop hd

/-- The codes of the system and of the exponents, as bytes. -/
def nibbles (u : PhysicalUnit) : List UInt8 :=
  UInt8.ofNat u.system.code :: u.exponents.toList.map Exponent.nibble

def putNibble (w : UInt32) (c : UInt8 × Nat) : UInt32 :=
  w ||| c.1.toUInt32 <<< UInt32.ofNat (4 * c.2)

/-- The word, from shifts and bitwise disjunctions alone. -/
def packed (u : PhysicalUnit) : UInt32 :=
  u.nibbles.zipIdx.foldl putNibble 0

/-- Four bits of a word, counted from the lowest. -/
def nibbleAt (w : UInt32) (i : Nat) : Nat :=
  (w >>> UInt32.ofNat (4 * i) &&& 0xf).toNat

theorem toNat_shift {i : Nat} (hi : i < 8) : (UInt32.ofNat (4 * i)).toNat % 32 = 4 * i := by
  rw [UInt32.toNat_ofNat']
  omega

/-- Below its place a code finds room, and it does not reach beyond four bits. -/
theorem toNat_putNibble {w : UInt32} {c : UInt8} {i : Nat} (hi : i < 8) (hw : w.toNat < 16 ^ i)
    (hc : c.toNat < 16) : (putNibble w (c, i)).toNat = w.toNat + 16 ^ i * c.toNat := by
  have hpow : 2 ^ (4 * i) = 16 ^ i := Nat.pow_mul 2 4 i
  have hroom : 16 ^ i * c.toNat < 2 ^ 32 := by
    have hle : 16 ^ i * 16 ≤ 2 ^ 32 := by
      rw [← Nat.pow_succ]
      exact Nat.pow_le_pow_right (by decide : 0 < 16) hi
    exact Nat.lt_of_lt_of_le (Nat.mul_lt_mul_of_pos_left hc (Nat.pow_pos (by decide))) hle
  have hshift : (c.toUInt32 <<< UInt32.ofNat (4 * i)).toNat = c.toNat <<< (4 * i) := by
    rw [UInt32.toNat_shiftLeft, toNat_shift hi, UInt8.toNat_toUInt32, Nat.shiftLeft_eq, hpow,
      Nat.mul_comm]
    exact Nat.mod_eq_of_lt hroom
  rw [putNibble, UInt32.toNat_or, hshift, Nat.or_comm,
    ← Nat.shiftLeft_add_eq_or_of_lt (hpow ▸ hw), Nat.shiftLeft_eq, hpow, Nat.add_comm,
    Nat.mul_comm]

theorem toNat_foldl_putNibble {cs : List UInt8} {i : Nat} {w : UInt32}
    (hcs : ∀ c ∈ cs, c.toNat < 16) (hi : i + cs.length ≤ 8) (hw : w.toNat < 16 ^ i) :
    ((cs.zipIdx i).foldl putNibble w).toNat =
      w.toNat + 16 ^ i * wordOfCodes (cs.map UInt8.toNat) := by
  induction cs generalizing i w with
  | nil => rfl
  | cons c cs ih =>
    obtain ⟨hc, hcs⟩ := List.forall_mem_cons.1 hcs
    rw [List.length_cons] at hi
    have hput := toNat_putNibble (by omega) hw hc
    have hbound : (putNibble w (c, i)).toNat < 16 ^ (i + 1) := by
      have hmul : 16 ^ i * c.toNat ≤ 16 ^ i * 15 := Nat.mul_le_mul_left _ (by omega)
      rw [hput, Nat.pow_succ]
      omega
    rw [List.zipIdx_cons, List.foldl_cons, ih hcs (by omega) hbound, hput, List.map_cons]
    change _ = w.toNat + 16 ^ i * (c.toNat + 16 * wordOfCodes (cs.map UInt8.toNat))
    rw [Nat.pow_succ, Nat.mul_add, Nat.add_assoc, Nat.mul_assoc]

theorem map_toNat_nibbles (u : PhysicalUnit) : u.nibbles.map UInt8.toNat = u.codes := by
  have hsystem : (UInt8.ofNat u.system.code).toNat = u.system.code := by
    cases u.system <;> rfl
  rw [nibbles, codes, List.map_cons, hsystem, List.map_map]
  exact congrArg (u.system.code :: ·) (List.map_congr_left fun e _ => e.toNat_nibble)

theorem toNat_packed (u : PhysicalUnit) : u.packed.toNat = u.word := by
  have hcodes : ∀ c ∈ u.nibbles, c.toNat < 16 := by
    intro c hc
    refine code_lt_of_mem_codes (u := u) ?_
    rw [← map_toNat_nibbles]
    exact List.mem_map_of_mem hc
  have hfold := toNat_foldl_putNibble (i := 0) (w := 0) hcodes (Nat.le_succ 7) (by decide)
  rw [packed, hfold, map_toNat_nibbles, word, Nat.pow_zero, Nat.one_mul]
  exact Nat.zero_add _

theorem packed_eq (u : PhysicalUnit) : u.packed = UInt32.ofNat u.word := by
  rw [← toNat_packed, UInt32.ofNat_toNat]

theorem packed_injective : Function.Injective packed := by
  intro u v h
  have hword : u.word = v.word := by
    rw [← toNat_packed, h, toNat_packed]
  have hread := ofWord?_word u
  rw [hword, ofWord?_word] at hread
  exact (Option.some.inj hread).symm

theorem nibbleAt_eq (w : UInt32) {i : Nat} (hi : i < 8) :
    nibbleAt w i = w.toNat / 16 ^ i % 16 := by
  have hpow : 2 ^ (4 * i) = 16 ^ i := Nat.pow_mul 2 4 i
  rw [nibbleAt, UInt32.toNat_and, UInt32.toNat_shiftRight, toNat_shift hi,
    Nat.shiftRight_eq_div_pow, hpow]
  exact Nat.and_two_pow_sub_one_eq_mod _ 4

theorem wordOfCodes_div_mod {cs : List Nat} (hcs : ∀ c ∈ cs, c < 16) {i c : Nat}
    (h : cs[i]? = some c) : wordOfCodes cs / 16 ^ i % 16 = c := by
  induction cs generalizing i with
  | nil => cases h
  | cons b cs ih =>
    obtain ⟨hb, hcs⟩ := List.forall_mem_cons.1 hcs
    have hword : wordOfCodes (b :: cs) = b + 16 * wordOfCodes cs := rfl
    cases i with
    | zero =>
      obtain rfl := Option.some.inj h
      rw [hword]
      omega
    | succ i =>
      have hrest : (b + 16 * wordOfCodes cs) / 16 = wordOfCodes cs := by omega
      rw [hword, Nat.pow_succ', ← Nat.div_div_eq_div_mul, hrest]
      exact ih hcs h

theorem nibbleAt_packed (u : PhysicalUnit) {i c : Nat} (h : u.codes[i]? = some c) :
    nibbleAt u.packed i = c := by
  have hi : i < u.codes.length := (List.getElem?_eq_some_iff.1 h).1
  rw [nibbleAt_eq _ (Nat.lt_trans hi (Nat.lt_succ_self 7)), toNat_packed, word]
  exact wordOfCodes_div_mod (fun c hc => code_lt_of_mem_codes hc) h

theorem getElem?_codes_succ (u : PhysicalUnit) (k : Fin Dimension.all.length) :
    u.codes[k.val + 1]? = some (u.exponents.get (Dimension.all.get k)).code := by
  rw [codes, List.getElem?_cons_succ, Dimensions.toList, List.getElem?_map, List.getElem?_map,
    List.getElem?_eq_getElem k.isLt]
  rfl

theorem wellFormed_unit (w : UInt32) : (ShortItem.unsigned .unit w).WellFormed :=
  ⟨rfl, rfl⟩

/-- Any six exponents make a unit if each of them has a code, and otherwise the first that has none
is named. The word of a unit holds the codes of its system and its exponents, in this order and
nothing else, so that no two units share a word; and as the data of an item it is read back from
its bytes. -/
theorem packed_round_trip :
    (∀ (system : UnitSystem) (exponents : Dimensions Int),
      ((∃ u, ofInts system exponents = .ok u) ↔ ∀ d, Exponent.InRange (exponents.get d)) ∧
      (∀ u, ofInts system exponents = .ok u ↔
        u.system = system ∧ ∀ d, (u.exponents.get d).value = exponents.get d) ∧
      ∀ e, ofInts system exponents = .error e ↔ ∃ d, firstInvalid? exponents = some d ∧
        e = .invalidUnit (.exponent (some d) (exponents.get d)) ∧
        e.message = "Invalid unit: " ++ (d.label ++ (" exponent " ++ toString (exponents.get d) ++
          " is outside [-8, 7]"))) ∧
    (∀ u : PhysicalUnit, u.packed.toNat < 2 ^ 28 ∧ nibbleAt u.packed 0 = u.system.code ∧
      (∀ k : Fin Dimension.all.length, Exponent.ofCode (nibbleAt u.packed (k.val + 1)) =
        u.exponents.get (Dimension.all.get k)) ∧
      ShortItem.ofNat .unit u.word = .unsigned .unit u.packed ∧
      ∀ rest, ShortItem.decode? ((ShortItem.unsigned .unit u.packed).toBytes ++ rest) =
        some (.unsigned .unit u.packed, (ShortItem.unsigned .unit u.packed).toBytes.length)) ∧
    Function.Injective packed := by
  refine ⟨fun system exponents => ⟨exists_ofInts_iff, fun u => ofInts_eq_ok_iff, fun e => ?_⟩,
    fun u => ⟨?_, nibbleAt_packed u rfl, fun k => ?_, ?_, fun rest => ?_⟩, packed_injective⟩
  · refine ofInts_eq_error_iff.trans (exists_congr fun d => and_congr_right fun _ => ?_)
    refine (and_iff_left_of_imp ?_).symm
    rintro rfl
    rfl
  · rw [toNat_packed]
    exact u.word_lt
  · rw [nibbleAt_packed u (getElem?_codes_succ u k), Exponent.ofCode_code]
  · rw [packed_eq]
    rfl
  · exact ShortItem.decode?_toBytes_append (wellFormed_unit u.packed) rest

end PhysicalUnit

end ReportDescriptor
