import Mathlib.Algebra.Order.Ring.Int
import ReportDescriptor.Proofs.Item.Codec

/-!
# Truncation is shortest

A value is written in as few bytes as can be extended to its four bytes again. The same bytes are
left when the four bytes of the value are stripped from above: a high byte goes as long as the one
below it tells that it was there, and three bytes get their fourth one back.
-/

namespace ReportDescriptor

namespace LittleEndian

variable {bs : List UInt8} {b c : UInt8}

theorem ofBytes_lt (bs : List UInt8) : (ofBytes bs : Int) < 256 ^ bs.length := by
  induction bs with
  | nil => exact Int.zero_lt_one
  | cons b bs ih =>
    have hb := b.toNat_lt
    rw [ofBytes, List.length_cons, Int.pow_succ]
    omega

theorem ofBytes_append_zero (bs : List UInt8) : ofBytes (bs ++ [0]) = ofBytes bs := by
  induction bs with
  | nil => rfl
  | cons b bs ih => rw [List.cons_append, ofBytes, ih, ofBytes]

/-- A high byte other than zero cannot be left out. -/
theorem le_ofBytes_append (bs : List UInt8) (hc : c ≠ 0) :
    (256 : Int) ^ bs.length ≤ ofBytes (bs ++ [c]) := by
  induction bs with
  | nil =>
    have hpos : c.toNat ≠ 0 := fun h => hc (UInt8.toNat.inj h)
    rw [List.nil_append, ofBytes, ofBytes, List.length_nil, Int.pow_zero]
    omega
  | cons b bs ih =>
    rw [List.cons_append, ofBytes, List.length_cons, Int.pow_succ]
    omega

/-- What the bytes above a number are filled with. -/
def signFill (negative : Bool) : UInt8 :=
  if negative then 255 else 0

@[simp] theorem isNegative_signFill (negative : Bool) :
    isNegative (signFill negative) = negative := by
  cases negative <;> rfl

theorem ofSignedBytes_cons (b : UInt8) (h : bs ≠ []) :
    ofSignedBytes (b :: bs) = b.toNat + 256 * ofSignedBytes bs := by
  rw [ofSignedBytes]
  exact h

/-- As many bytes hold no more than that. -/
theorem ofSignedBytes_bounds (h : bs ≠ []) :
    ∃ w, bs.length = w + 1 ∧ -(128 * 256 ^ w) ≤ ofSignedBytes bs ∧
      ofSignedBytes bs < 128 * 256 ^ w := by
  induction bs with
  | nil => exact absurd rfl h
  | cons b bs ih =>
    have hb := b.toNat_lt
    by_cases hbs : bs = []
    · subst hbs
      refine ⟨0, rfl, ?_⟩
      rw [ofSignedBytes, toInt_toInt8, isNegative, Int.pow_zero]
      simp only [decide_eq_true_eq]
      split <;> omega
    · obtain ⟨w, hlength, hge, hlt⟩ := ih hbs
      refine ⟨w + 1, by rw [List.length_cons, hlength], ?_⟩
      rw [ofSignedBytes_cons b hbs, Int.pow_succ]
      omega

/-- A high byte that only repeats the sign can be left out. -/
theorem ofSignedBytes_append_signFill (bs : List UInt8) (b : UInt8) :
    ofSignedBytes (bs ++ [b, signFill (isNegative b)]) = ofSignedBytes (bs ++ [b]) := by
  induction bs with
  | nil =>
    rw [List.nil_append, ofSignedBytes_cons b (List.cons_ne_nil _ _), ofSignedBytes, toInt_toInt8,
      isNegative_signFill, List.nil_append, ofSignedBytes, toInt_toInt8]
    cases isNegative b with
    | true => exact Int.add_comm _ _
    | false => exact Int.add_zero _
  | cons a bs ih =>
    have hne : ∀ cs : List UInt8, bs ++ b :: cs ≠ [] := fun cs h => by cases bs <;> cases h
    rw [List.cons_append, ofSignedBytes_cons a (hne _), ih, List.cons_append,
      ofSignedBytes_cons a (hne _)]

/-- The highest byte has the sign of the number. -/
theorem isNegative_eq (bs : List UInt8) (b : UInt8) :
    isNegative b = decide (ofSignedBytes (bs ++ [b]) < 0) := by
  induction bs with
  | nil =>
    have hb := b.toNat_lt
    have hvalue := toInt_toInt8 b
    rw [List.nil_append, ofSignedBytes, eq_comm]
    cases hneg : isNegative b with
    | true =>
      rw [hneg, if_pos rfl] at hvalue
      rw [decide_eq_true_eq]
      omega
    | false =>
      rw [hneg, if_neg Bool.false_ne_true] at hvalue
      rw [decide_eq_false_iff_not]
      omega
  | cons a bs ih =>
    have ha := a.toNat_lt
    have hne : bs ++ [b] ≠ [] := by cases bs <;> exact List.cons_ne_nil _ _
    rw [ih, List.cons_append, ofSignedBytes_cons a hne, decide_eq_decide]
    omega

/-- Any other high byte cannot. -/
theorem lt_or_le_ofSignedBytes_append (bs : List UInt8) {negative : Bool}
    (hsign : negative = decide (ofSignedBytes (bs ++ [b, c]) < 0))
    (h : ¬(c = signFill negative ∧ isNegative b = negative)) :
    ofSignedBytes (bs ++ [b, c]) < -(128 * 256 ^ bs.length) ∨
      128 * 256 ^ bs.length ≤ ofSignedBytes (bs ++ [b, c]) := by
  induction bs with
  | nil =>
    have hb := b.toNat_lt
    have hc := c.toNat_lt
    have hfill : c = signFill negative ↔ c.toNat = if negative then 255 else 0 := by
      rw [← UInt8.toNat_inj]
      cases negative <;> rfl
    rw [List.nil_append, ofSignedBytes_cons b (List.cons_ne_nil _ _), ofSignedBytes,
      toInt_toInt8, isNegative] at hsign ⊢
    rw [hfill, isNegative] at h
    rw [List.length_nil, Int.pow_zero]
    simp only [decide_eq_true_eq] at hsign ⊢
    cases negative with
    | true =>
      rw [eq_comm, decide_eq_true_eq] at hsign
      rw [decide_eq_true_eq, if_pos rfl] at h
      split at hsign <;> omega
    | false =>
      rw [eq_comm, decide_eq_false_iff_not] at hsign
      rw [decide_eq_false_iff_not, if_neg Bool.false_ne_true] at h
      split at hsign <;> omega
  | cons a bs ih =>
    have ha := a.toNat_lt
    have hne : bs ++ [b, c] ≠ [] := by cases bs <;> exact List.cons_ne_nil _ _
    rw [List.cons_append, ofSignedBytes_cons a hne] at hsign ⊢
    have hsame : negative = decide (ofSignedBytes (bs ++ [b, c]) < 0) := by
      rw [hsign, decide_eq_decide]
      omega
    have houtside := ih hsame
    rw [List.length_cons, Int.pow_succ]
    omega

theorem toBytes_ofSignedBytes (bs : List UInt8) : toBytes bs.length (ofSignedBytes bs) = bs := by
  induction bs with
  | nil => rfl
  | cons b bs ih =>
    have hb := b.toNat_lt
    by_cases hbs : bs = []
    · subst hbs
      have hlow := toNat_ofInt_byte b.toInt8.toInt
      have hbyte : UInt8.ofInt b.toInt8.toInt = b := by
        apply UInt8.toNat.inj
        have hvalue := toInt_toInt8 b
        split at hvalue <;> omega
      rw [ofSignedBytes, List.length_singleton, toBytes, toBytes, hbyte]
    · have hlow := toNat_ofInt_byte (b.toNat + 256 * ofSignedBytes bs)
      have hhigh : (b.toNat + 256 * ofSignedBytes bs) / 256 = ofSignedBytes bs := by omega
      have hbyte : UInt8.ofInt (b.toNat + 256 * ofSignedBytes bs) = b := by
        apply UInt8.toNat.inj
        omega
      rw [ofSignedBytes_cons b hbs, List.length_cons, toBytes, hhigh, ih, hbyte]

/-- Zeros above the bytes, up to four. -/
def zeroFilled (bs : List UInt8) : List UInt8 :=
  bs ++ List.replicate (4 - bs.length) 0

/-- The sign above the bytes, up to four. -/
def signFilled (bs : List UInt8) : List UInt8 :=
  bs ++ List.replicate (4 - bs.length) (signFill (bs.getLast?.any isNegative))

theorem ofBytes_append_replicate (bs : List UInt8) (n : Nat) :
    ofBytes (bs ++ List.replicate n 0) = ofBytes bs := by
  induction n generalizing bs with
  | zero => rw [List.replicate_zero, List.append_nil]
  | succ n ih =>
    rw [List.replicate_succ, List.append_cons, ih, ofBytes_append_zero]

theorem ofSignedBytes_append_replicate (bs : List UInt8) (b : UInt8) (n : Nat) :
    ofSignedBytes (bs ++ [b] ++ List.replicate n (signFill (isNegative b))) =
      ofSignedBytes (bs ++ [b]) := by
  induction n generalizing bs b with
  | zero => rw [List.replicate_zero, List.append_nil]
  | succ n ih =>
    have hrest := ih (bs ++ [b]) (signFill (isNegative b))
    rw [isNegative_signFill] at hrest
    rw [List.replicate_succ, List.append_cons, hrest, List.append_assoc]
    exact ofSignedBytes_append_signFill bs b

theorem zeroFilled_eq_iff {v : UInt32} (h : bs.length ≤ 4) :
    zeroFilled bs = toBytes 4 v.toNat ↔ ofBytes bs = v.toNat := by
  have hvalue : ofBytes (zeroFilled bs) = ofBytes bs := ofBytes_append_replicate bs _
  have hlength : (zeroFilled bs).length = 4 := by
    rw [zeroFilled, List.length_append, List.length_replicate]
    omega
  have hv := v.toNat_lt
  constructor
  · intro hfilled
    have hread := ofBytes_toBytes (w := 4) (Int.natCast_nonneg v.toNat) (by omega)
    rw [← hfilled, hvalue] at hread
    exact Int.ofNat.inj hread
  · intro hbytes
    have hwritten := toBytes_ofBytes (zeroFilled bs)
    rw [hlength, hvalue, hbytes] at hwritten
    exact hwritten.symm

theorem signFilled_eq_iff {v : Int32} (h : bs.length ≤ 4) (hne : bs ≠ []) :
    signFilled bs = toBytes 4 v.toInt ↔ ofSignedBytes bs = v.toInt := by
  have hvalue : ofSignedBytes (signFilled bs) = ofSignedBytes bs := by
    obtain ⟨as, b, rfl⟩ := List.eq_nil_or_concat bs |>.resolve_left hne
    rw [signFilled, List.concat_eq_append, List.getLast?_append, List.getLast?_singleton]
    exact ofSignedBytes_append_replicate as b _
  have hlength : (signFilled bs).length = 4 := by
    rw [signFilled, List.length_append, List.length_replicate]
    omega
  have hge := v.le_toInt
  have hlt := v.toInt_lt
  constructor
  · intro hfilled
    have hread := ofSignedBytes_toBytes (w := 3) (n := v.toInt) (by omega) (by omega)
    rwa [← hfilled, hvalue] at hread
  · intro hbytes
    have hwritten := toBytes_ofSignedBytes (signFilled bs)
    rw [hlength, hvalue, hbytes] at hwritten
    exact hwritten.symm

end LittleEndian

namespace Truncation

open LittleEndian

/-- The bytes are extended to `full`, and no fewer are. -/
structure Shortest (extend : List UInt8 → List UInt8) (full bs : List UInt8) : Prop where
  expressible : Expressible bs.length
  extend_eq : extend bs = full
  least : ∀ cs, Expressible cs.length → extend cs = full → bs.length ≤ cs.length

theorem Shortest.unique {extend : List UInt8 → List UInt8} {full bs cs : List UInt8}
    (hextends : ∀ ds, ds <+: extend ds) (hbs : Shortest extend full bs)
    (hcs : Shortest extend full cs) : bs = cs := by
  have hle := hbs.least cs hcs.expressible hcs.extend_eq
  have hge := hcs.least bs hbs.expressible hbs.extend_eq
  have hb := hextends bs
  have hc := hextends cs
  rw [hbs.extend_eq] at hb
  rw [hcs.extend_eq] at hc
  exact (List.prefix_of_prefix_length_le hb hc hle).eq_of_length (Nat.le_antisymm hle hge)

/-- No fewer bytes than these hold the value. -/
theorem unsignedLength_le {v : UInt32} {n : Nat} (hn : Expressible n)
    (h : (v.toNat : Int) < 256 ^ n) : unsignedLength v ≤ n := by
  rw [unsignedLength]
  rcases hn with rfl | rfl | rfl
  · rw [if_pos (by omega)]
  · split
    · decide
    · rw [if_pos (by omega)]
  · split
    · decide
    · split <;> decide

theorem signedLength_le {v : Int32} {w : Nat} (hw : Expressible (w + 1))
    (hge : -(128 * 256 ^ w) ≤ v.toInt) (hlt : v.toInt < 128 * 256 ^ w) :
    signedLength v ≤ w + 1 := by
  rw [signedLength]
  rcases hw with h | h | h
  · obtain rfl : w = 0 := by omega
    rw [if_pos (by omega)]
  · obtain rfl : w = 1 := by omega
    split
    · decide
    · rw [if_pos (by omega)]
  · obtain rfl : w = 3 := by omega
    split
    · decide
    · split <;> decide

theorem shortest_unsigned (v : UInt32) :
    Shortest zeroFilled (toBytes 4 v.toNat) (unsigned v) := by
  have hlength := expressible_unsignedLength v
  rw [← length_unsigned] at hlength
  refine ⟨hlength, ?_, ?_⟩
  · rw [zeroFilled_eq_iff hlength.le_four]
    exact Int.ofNat.inj (ofBytes_toBytes (Int.natCast_nonneg _) (toNat_lt_pow_unsignedLength v))
  · intro cs hcs hextend
    have hbound := ofBytes_lt cs
    rw [(zeroFilled_eq_iff hcs.le_four).1 hextend] at hbound
    rw [length_unsigned]
    exact unsignedLength_le hcs hbound

theorem shortest_signed (v : Int32) : Shortest signFilled (toBytes 4 v.toInt) (signed v) := by
  have hlength := expressible_signedLength v
  rw [← length_signed] at hlength
  refine ⟨hlength, ?_, ?_⟩
  · rw [signFilled_eq_iff hlength.le_four hlength.ne_nil]
    obtain ⟨w, hw, hge, hlt⟩ := signedLength_eq_succ v
    rw [signed, hw, ofSignedBytes_toBytes hge hlt]
  · intro cs hcs hextend
    obtain ⟨w, hw, hge, hlt⟩ := ofSignedBytes_bounds hcs.ne_nil
    rw [(signFilled_eq_iff hcs.le_four hcs.ne_nil).1 hextend] at hge hlt
    rw [hw] at hcs ⊢
    rw [length_signed]
    exact signedLength_le hcs hge hlt

section Strip

/-- Takes the highest byte, which stands first here, away as long as it is `fill` and the next one
tells that it was there. -/
def dropHigh (fill : UInt8) (tells : UInt8 → Bool) : List UInt8 → List UInt8
  | a :: b :: bs =>
    if a = fill ∧ tells b = true then dropHigh fill tells (b :: bs) else a :: b :: bs
  | bs => bs

/-- What is left of some bytes when they are stripped from above. -/
def strip (fill : UInt8) (tells : UInt8 → Bool) (bs : List UInt8) : List UInt8 :=
  let kept := (dropHigh fill tells bs.reverse).reverse
  if kept.length = 3 then kept ++ [fill] else kept

variable {fill : UInt8} {tells : UInt8 → Bool}

/-- What taking one byte away keeps, stripping keeps. -/
theorem dropHigh_induction {P : List UInt8 → Prop}
    (hstep : ∀ b bs, tells b = true → P (fill :: b :: bs) → P (b :: bs)) {bs : List UInt8}
    (h : P bs) : P (dropHigh fill tells bs) := by
  fun_induction dropHigh fill tells bs with
  | case1 a b bs hdrop ih =>
    obtain ⟨rfl, hb⟩ := hdrop
    exact ih (hstep b bs hb h)
  | case2 a b bs hkeep => exact h
  | case3 bs hshort => exact h

/-- No byte is left that could go. -/
theorem not_of_dropHigh {a b : UInt8} {bs cs : List UInt8}
    (h : dropHigh fill tells cs = a :: b :: bs) : ¬(a = fill ∧ tells b = true) := by
  fun_induction dropHigh fill tells cs with
  | case1 a' b' bs' hdrop ih => exact ih h
  | case2 a' b' bs' hkeep =>
    cases h
    exact hkeep
  | case3 cs hshort => exact absurd h (hshort a b bs)

/-- What is kept ends with one byte or with two of which the higher one has to stay. -/
theorem strip_cases (fill : UInt8) (tells : UInt8 → Bool) {P : List UInt8 → Prop}
    (hstep : ∀ b bs, tells b = true → P (bs ++ [b, fill]) → P (bs ++ [b]))
    {bs : List UInt8} (hne : bs ≠ []) (hfour : bs.length ≤ 4) (h : P bs) :
    ∃ ks, P ks ∧ ks ≠ [] ∧ ks.length ≤ 4 ∧
      strip fill tells bs = (if ks.length = 3 then ks ++ [fill] else ks) ∧
      ((∃ b, ks = [b]) ∨ ∃ cs b c, ks = cs ++ [b, c] ∧ ¬(c = fill ∧ tells b = true)) := by
  have hkept : dropHigh fill tells bs.reverse ≠ [] ∧
      (dropHigh fill tells bs.reverse).length ≤ 4 ∧ P (dropHigh fill tells bs.reverse).reverse := by
    refine dropHigh_induction (P := fun hs => hs ≠ [] ∧ hs.length ≤ 4 ∧ P hs.reverse) ?_ ?_
    · rintro b hs hb ⟨-, hlength, hP⟩
      rw [List.length_cons] at hlength
      refine ⟨List.cons_ne_nil _ _, by omega, ?_⟩
      simp only [List.reverse_cons, List.append_assoc, List.singleton_append] at hP ⊢
      exact hstep b hs.reverse hb hP
    · rw [List.length_reverse, List.reverse_reverse]
      exact ⟨fun hnil => hne (List.reverse_eq_nil_iff.1 hnil), hfour, h⟩
  obtain ⟨hnonempty, hlength, hP⟩ := hkept
  refine ⟨_, hP, fun hnil => hnonempty (List.reverse_eq_nil_iff.1 hnil),
    by rwa [List.length_reverse], rfl, ?_⟩
  cases hdrop : dropHigh fill tells bs.reverse with
  | nil => exact absurd hdrop hnonempty
  | cons c hs =>
    cases hs with
    | nil => exact .inl ⟨c, rfl⟩
    | cons b hs =>
      refine .inr ⟨hs.reverse, b, c, ?_, not_of_dropHigh hdrop⟩
      rw [List.reverse_cons, List.reverse_cons, List.append_assoc, List.singleton_append]

theorem toBytes_four_ne_nil (n : Int) : toBytes 4 n ≠ [] :=
  List.length_pos_iff.1 (by rw [length_toBytes]; decide)

theorem Shortest.of_kept {extend : List UInt8 → List UInt8} {full ks : List UInt8}
    (hne : ks ≠ []) (hfour : ks.length ≤ 4) (hextend : extend ks = full)
    (hfill : ks.length = 3 → extend (ks ++ [fill]) = full)
    (hleast : ∀ cs, Expressible cs.length → extend cs = full → ks.length ≤ cs.length) :
    Shortest extend full (if ks.length = 3 then ks ++ [fill] else ks) := by
  have hpos := List.length_pos_iff.2 hne
  split
  case isTrue hthree =>
    have hlength : (ks ++ [fill]).length = 4 := by
      rw [List.length_append, hthree, List.length_singleton]
    refine ⟨.inr (.inr hlength), hfill hthree, fun cs hcs h => ?_⟩
    have hle := hleast cs hcs h
    rcases hcs with hcs | hcs | hcs <;> omega
  case isFalse hthree =>
    refine ⟨?_, hextend, hleast⟩
    rw [Expressible]
    omega

/-- Taking zeros away from above ends with the shortest bytes of an unsigned value. -/
theorem shortest_strip_unsigned (v : UInt32) :
    Shortest zeroFilled (toBytes 4 v.toNat)
      (strip 0 (fun _ => true) (toBytes 4 v.toNat)) := by
  have hv := v.toNat_lt
  have hread : ofBytes (toBytes 4 v.toNat) = v.toNat :=
    Int.ofNat.inj (ofBytes_toBytes (Int.natCast_nonneg _) (by omega))
  obtain ⟨ks, hvalue, hne, hfour, hstrip, hend⟩ := strip_cases 0 (fun _ => true)
    (P := fun ks => ofBytes ks = v.toNat)
    (fun b bs _ h => by rwa [List.append_cons, ofBytes_append_zero] at h)
    (toBytes_four_ne_nil _) (Nat.le_of_eq (length_toBytes 4 _)) hread
  rw [hstrip]
  refine Shortest.of_kept hne hfour ((zeroFilled_eq_iff hfour).2 hvalue) ?_ ?_
  · intro hthree
    rw [zeroFilled_eq_iff (by rw [List.length_append, hthree, List.length_singleton]),
      ofBytes_append_zero]
    exact hvalue
  · intro cs hcs hextend
    have hbound := ofBytes_lt cs
    rw [(zeroFilled_eq_iff hcs.le_four).1 hextend] at hbound
    rcases hend with ⟨b, rfl⟩ | ⟨ds, b, c, rfl, hstuck⟩
    · exact List.length_pos_iff.2 hcs.ne_nil
    · have hlarge := le_ofBytes_append (ds ++ [b]) (c := c) fun h => hstuck ⟨h, rfl⟩
      rw [List.append_assoc, List.singleton_append, hvalue] at hlarge
      have hlt := (pow_lt_pow_iff_right₀ (by decide)).1 (Int.lt_of_le_of_lt hlarge hbound)
      rw [List.length_append] at hlt ⊢
      exact hlt

/-- Taking repeated signs away from above ends with the shortest bytes of a signed value. -/
theorem shortest_strip_signed {v : Int32} {negative : Bool}
    (hsign : negative = decide (v.toInt < 0)) :
    Shortest signFilled (toBytes 4 v.toInt)
      (strip (signFill negative) (fun b => isNegative b == negative) (toBytes 4 v.toInt)) := by
  have hge := v.le_toInt
  have hlt := v.toInt_lt
  have hread : ofSignedBytes (toBytes 4 v.toInt) = v.toInt :=
    ofSignedBytes_toBytes (w := 3) (by omega) (by omega)
  obtain ⟨ks, hvalue, hne, hfour, hstrip, hend⟩ := strip_cases (signFill negative)
    (fun b => isNegative b == negative) (P := fun ks => ofSignedBytes ks = v.toInt)
    (fun b bs hb h => by rwa [← beq_iff_eq.1 hb, ofSignedBytes_append_signFill] at h)
    (toBytes_four_ne_nil _) (Nat.le_of_eq (length_toBytes 4 _)) hread
  rw [hstrip]
  refine Shortest.of_kept hne hfour ((signFilled_eq_iff hfour hne).2 hvalue) ?_ ?_
  · intro hthree
    obtain ⟨ds, c, rfl⟩ := (List.eq_nil_or_concat ks).resolve_left hne
    rw [List.concat_eq_append] at hthree hvalue ⊢
    have htop : negative = isNegative c := by rw [isNegative_eq ds c, hvalue, hsign]
    rw [signFilled_eq_iff (by rw [List.length_append, hthree, List.length_singleton])
      (List.append_ne_nil_of_right_ne_nil _ (List.cons_ne_nil _ _)), List.append_assoc,
      List.singleton_append, htop, ofSignedBytes_append_signFill]
    exact hvalue
  · intro cs hcs hextend
    rcases hend with ⟨b, rfl⟩ | ⟨ds, b, c, rfl, hstuck⟩
    · exact List.length_pos_iff.2 hcs.ne_nil
    · obtain ⟨w, hw, hlow, hhigh⟩ := ofSignedBytes_bounds hcs.ne_nil
      rw [(signFilled_eq_iff hcs.le_four hcs.ne_nil).1 hextend] at hlow hhigh
      rw [beq_iff_eq] at hstuck
      have houtside := lt_or_le_ofSignedBytes_append ds (by rw [hvalue, hsign]) hstuck
      rw [hvalue] at houtside
      have hpow : (256 : Int) ^ ds.length < 256 ^ w := by omega
      have hshorter := (pow_lt_pow_iff_right₀ (by decide)).1 hpow
      rw [List.length_append, List.length_cons, List.length_singleton, hw]
      omega

end Strip

theorem prefix_zeroFilled (bs : List UInt8) : bs <+: zeroFilled bs :=
  List.prefix_append _ _

theorem prefix_signFilled (bs : List UInt8) : bs <+: signFilled bs :=
  List.prefix_append _ _

/-- Stripping from above leaves what is written. -/
theorem unsigned_eq_strip (v : UInt32) :
    unsigned v = strip 0 (fun _ => true) (toBytes 4 v.toNat) :=
  (shortest_unsigned v).unique prefix_zeroFilled (shortest_strip_unsigned v)

theorem signed_eq_strip (v : Int32) {negative : Bool} (hsign : negative = decide (v.toInt < 0)) :
    signed v = strip (signFill negative) (fun b => isNegative b == negative) (toBytes 4 v.toInt) :=
  (shortest_signed v).unique prefix_signFilled (shortest_strip_signed hsign)

/-- A value is written in the fewest bytes, of one, two or four, that filled up to four with zeros
or, where it is signed, with its sign are the four bytes of the value; these are what stripping
the four bytes leaves. -/
theorem truncated_shortest :
    (∀ v : UInt32, Shortest zeroFilled (toBytes 4 v.toNat) (unsigned v) ∧
      unsigned v = strip 0 (fun _ => true) (toBytes 4 v.toNat)) ∧
    ∀ v : Int32, Shortest signFilled (toBytes 4 v.toInt) (signed v) ∧
      signed v = strip (signFill (v.toInt < 0)) (fun b => isNegative b == (v.toInt < 0 : Bool))
        (toBytes 4 v.toInt) :=
  ⟨fun v => ⟨shortest_unsigned v, unsigned_eq_strip v⟩,
    fun v => ⟨shortest_signed v, signed_eq_strip v rfl⟩⟩

example : unsigned 0x10000 = [0x00, 0x00, 0x01, 0x00] := by decide
example : signed (-129) = [0x7f, 0xff] := by decide

end Truncation

end ReportDescriptor
