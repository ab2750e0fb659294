import TileProgram.Decimal.Numeral
import TileProgram.Proofs.Decimal.Shortest
import TileProgram.Proofs.Listing.Words
import Mathlib.Data.List.TakeWhile

/-!
# Numbers in listings can be read back

The text of a double in a listing is a sign, if there is one, and digits around
a point; it is that of no other double.  The number that the digits stand for
lies in the interval of one magnitude only, and the sign bit is what the text
starts with.
-/

namespace TileProgram

open List

variable {x : Float} {c : Char}

namespace Decimal

open Float.Model

/-! ## Classes of doubles -/

theorem eq_of_toBits {y : Float} (h : x.toBits.toNat = y.toBits.toNat) :
    x = y := by
  rcases x with ⟨⟨bits, valid⟩⟩
  rcases y with ⟨⟨bits', valid'⟩⟩
  have hbits : bits = bits' := UInt64.toNat_inj.mp h
  subst hbits
  rfl

section

variable (b : BitVec Format.binary64.numBits)

theorem toNat_unpackExponent :
    (UnpackedFloat.unpackExponent b).toNat = b.toNat / 2 ^ 52 % 2 ^ 11 := by
  simp [UnpackedFloat.unpackExponent, Nat.shiftRight_eq_div_pow]

theorem toNat_unpackMantissa :
    (UnpackedFloat.unpackMantissa b).toNat = b.toNat % 2 ^ 52 := by
  simp [UnpackedFloat.unpackMantissa]

theorem magnitude_eq :
    b.toNat % 2 ^ 63
    = (UnpackedFloat.unpackExponent b).toNat * 2 ^ 52 +
      (UnpackedFloat.unpackMantissa b).toNat := by
  rw [toNat_unpackExponent, toNat_unpackMantissa]
  omega

theorem unpack_cases :
    (UnpackedFloat.unpackExponent b = -1#_ ∧
        UnpackedFloat.unpackMantissa b ≠ 0#_ ∧
        UnpackedFloat.unpack Format.binary64 b = .notANumber) ∨
      (UnpackedFloat.unpackExponent b = -1#_ ∧
        UnpackedFloat.unpackMantissa b = 0#_ ∧
        ∃ sign, UnpackedFloat.unpack Format.binary64 b = .infinity sign) ∨
      (UnpackedFloat.unpackExponent b = 0#_ ∧
        UnpackedFloat.unpackMantissa b = 0#_ ∧
        ∃ sign, UnpackedFloat.unpack Format.binary64 b = .zero sign) ∨
      ∃ sign mantissa exponent, ∃ hpos : 0 < mantissa,
        UnpackedFloat.unpack Format.binary64 b =
          .finite sign mantissa exponent hpos := by
  unfold UnpackedFloat.unpack
  dsimp only
  by_cases hones : UnpackedFloat.unpackExponent b = -1#_
  · rw [if_pos hones]
    by_cases hzero : UnpackedFloat.unpackMantissa b = 0#_
    · rw [if_pos hzero]
      exact .inr (.inl ⟨hones, hzero, _, rfl⟩)
    · rw [if_neg hzero]
      exact .inl ⟨hones, hzero, rfl⟩
  · rw [if_neg hones]
    by_cases hexponent : UnpackedFloat.unpackExponent b = 0#_
    · rw [if_pos hexponent]
      by_cases hmantissa : UnpackedFloat.unpackMantissa b = 0#_
      · rw [dif_pos hmantissa]
        exact .inr (.inr (.inl ⟨hexponent, hmantissa, _, rfl⟩))
      · have hpos : 0 < (UnpackedFloat.unpackMantissa b).toNat :=
          Nat.pos_of_ne_zero fun hzero =>
            hmantissa (BitVec.eq_of_toNat_eq hzero)
        rw [dif_neg hmantissa]
        exact .inr (.inr (.inr ⟨_, _, _, hpos, rfl⟩))
    · have hpos : 0 < (1#1 ++ UnpackedFloat.unpackMantissa b).toNat := by
        rw [BitVec.toNat_append]
        exact Nat.lt_of_lt_of_le (by decide) Nat.left_le_or
      rw [if_neg hexponent]
      exact .inr (.inr (.inr ⟨_, _, _, hpos, rfl⟩))

end

theorem toBits_of_isNaN (h : x.isNaN = true) :
    x.toBits.toNat = 0x7ff8000000000000 := by
  change (UnpackedFloat.unpack Format.binary64 x.toBits.toBitVec).isNaN =
    true at h
  rcases unpack_cases x.toBits.toBitVec with
    ⟨hones, hmantissa, _⟩ | ⟨_, _, _, heq⟩ | ⟨_, _, _, heq⟩ | ⟨_, _, _, _, heq⟩
  · have hbits : x.toBits.toBitVec = UnpackedFloat.packedNaN Format.binary64 :=
      x.toModel.valid.eq_packedNaN hones hmantissa
    change x.toBits.toBitVec.toNat = _
    rw [hbits]
    decide
  all_goals
    rw [heq] at h
    cases h

theorem magnitude_of_isInf (h : x.isInf = true) :
    x.toBits.toNat % 2 ^ 63 = 0x7ff0000000000000 := by
  change (UnpackedFloat.unpack Format.binary64 x.toBits.toBitVec).isInf =
    true at h
  change x.toBits.toBitVec.toNat % 2 ^ 63 = _
  rcases unpack_cases x.toBits.toBitVec with
    ⟨_, _, heq⟩ | ⟨hones, hmantissa, _⟩ | ⟨_, _, _, heq⟩ | ⟨_, _, _, _, heq⟩
  · rw [heq] at h
    cases h
  · rw [magnitude_eq, hones, hmantissa]
    decide
  all_goals
    rw [heq] at h
    cases h

theorem magnitude_of_beq_zero (h : (x == 0) = true) :
    x.toBits.toNat % 2 ^ 63 = 0 := by
  change (UnpackedFloat.unpack Format.binary64 x.toBits.toBitVec).beq
    (.zero .positive) = true at h
  change x.toBits.toBitVec.toNat % 2 ^ 63 = _
  rcases unpack_cases x.toBits.toBitVec with
    ⟨_, _, heq⟩ | ⟨_, _, sign, heq⟩ | ⟨hexponent, hmantissa, _⟩ | ⟨sign, _, _,
      _, heq⟩
  · rw [heq] at h
    cases h
  · rw [heq] at h
    cases sign <;> cases h
  · rw [magnitude_eq, hexponent, hmantissa]
    decide
  · rw [heq] at h
    cases sign <;> cases h

theorem eq_or_eq_of_magnitude
    {magnitude : ℕ} (h : x.toBits.toNat % 2 ^ 63 = magnitude) :
    x.toBits.toNat = magnitude ∨ x.toBits.toNat = 2 ^ 63 + magnitude := by
  have hbits := x.toBits.toNat_lt
  omega

theorem beq_zero_of_magnitude (h : x.toBits.toNat % 2 ^ 63 = 0) :
    (x == 0) = true := by
  rcases eq_or_eq_of_magnitude h with hbits | hbits
  · have hzero : x = 0 := eq_of_toBits (hbits.trans (by decide +kernel))
    rw [hzero]
    decide +kernel
  · have hzero : x = -0 := eq_of_toBits (hbits.trans (by decide +kernel))
    rw [hzero]
    decide +kernel

theorem lt_zero_of_isInf (h : x.isInf = true) :
    x < 0 ↔ 2 ^ 63 ≤ x.toBits.toNat := by
  rcases eq_or_eq_of_magnitude (magnitude_of_isInf h) with hbits | hbits
  · have heq : x = Float.ofBits 0x7ff0000000000000 :=
      eq_of_toBits (hbits.trans (by decide +kernel))
    rw [heq]
    decide +kernel
  · have heq : x = Float.ofBits 0xfff0000000000000 :=
      eq_of_toBits (hbits.trans (by decide +kernel))
    rw [heq]
    decide +kernel

/-! ## Positional texts -/

/-- The number that digits around a point stand for. -/
def numberOf (text : List Char) : ℚ :=
  let fraction := (text.dropWhile (· ≠ '.')).drop 1
  Nat.ofDigitChars 10 (text.takeWhile (· ≠ '.') ++ fraction) 0 / 10 ^
    fraction.length

section

variable {whole : List Char}

theorem before_point (h : '.' ∉ whole) :
    ∀ c ∈ whole, decide (c ≠ '.') = true := by
  intro c hc
  rw [decide_eq_true_eq]
  exact fun heq => h (heq ▸ hc)

theorem numberOf_whole (h : '.' ∉ whole) :
    numberOf whole = Nat.ofDigitChars 10 whole 0 := by
  have hall := before_point h
  unfold numberOf
  rw [takeWhile_eq_self_iff.mpr hall, dropWhile_eq_nil_iff.mpr hall]
  simp

theorem numberOf_point (h : '.' ∉ whole) (fraction : List Char) :
    numberOf (whole ++ '.' :: fraction)
      = Nat.ofDigitChars 10 (whole ++ fraction) 0 / 10 ^ fraction.length := by
  have hall := before_point h
  unfold numberOf
  rw [takeWhile_append_of_pos hall, dropWhile_append_of_pos hall]
  simp

end

theorem toList_positional (digits : String) (point : ℤ) :
    (positional listingStyle digits point).toList
      = if point ≤ 0 then
          ['0'] ++ '.' :: (replicate (-point).toNat '0' ++ digits.toList)
        else if (digits.length : ℤ) ≤ point then
          digits.toList ++ replicate (point - digits.length).toNat '0'
        else digits.toList.take point.toNat ++
        '.' :: digits.toList.drop point.toNat := by
  unfold positional
  dsimp only
  split_ifs with hleft hright hkeeps
  · simp [toList_pushn]
  · simp [listingStyle] at hkeeps
  · simp [toList_pushn]
  · simp

theorem dot_not_mem_repr (n : ℕ) : '.' ∉ n.repr.toList := by
  intro h
  exact absurd (isDigit_of_mem_repr h) (by decide)

theorem ofDigitChars_repr (n : ℕ) :
    Nat.ofDigitChars 10 n.repr.toList 0 = n := by
  rw [Nat.toList_repr]
  exact Nat.ofDigitChars_ten_toDigits

theorem numberOf_positional (d : Digits) :
    numberOf (positional listingStyle d.significand.repr
      (d.significand.repr.length + d.exponent)).toList = d.value := by
  have hfraction : ∀ k : ℕ, (k : ℤ) = -d.exponent →
      (d.significand : ℚ) / 10 ^ k = d.value := by
    intro k hk
    have hexponent : d.exponent = -(k : ℤ) := by omega
    rw [Digits.value, hexponent, zpow_neg, zpow_natCast, div_eq_mul_inv]
  have hlength : d.significand.repr.toList.length = d.significand.repr.length :=
    String.length_toList
  rw [toList_positional]
  split_ifs with hleft hright
  · rw [numberOf_point (by decide), Nat.ofDigitChars_append,
      Nat.ofDigitChars_append, Nat.ofDigitChars_replicate_zero]
    change ((Nat.ofDigitChars 10 d.significand.repr.toList (10 ^ _ *
      0) : ℕ) : ℚ) / _ = _
    rw [Nat.mul_zero, ofDigitChars_repr]
    apply hfraction
    rw [length_append, length_replicate, hlength]
    omega
  · have hdot : '.' ∉ d.significand.repr.toList ++
        replicate (d.significand.repr.length +
          d.exponent - d.significand.repr.length : ℤ).toNat '0' := by
      rw [mem_append]
      rintro (h | h)
      · exact dot_not_mem_repr _ h
      · exact absurd (eq_of_mem_replicate h) (by decide)
    have hexponent : d.exponent = ((d.significand.repr.length +
        d.exponent - d.significand.repr.length : ℤ).toNat : ℤ) := by
      omega
    rw [numberOf_whole hdot, Nat.ofDigitChars_append, ofDigitChars_repr,
      Nat.ofDigitChars_replicate_zero, Digits.value]
    nth_rewrite 2 [hexponent]
    rw [zpow_natCast]
    push_cast
    ring
  · have hdot : '.' ∉ d.significand.repr.toList.take
        (d.significand.repr.length + d.exponent).toNat :=
      fun h => dot_not_mem_repr _ (mem_of_mem_take h)
    rw [numberOf_point hdot, take_append_drop, ofDigitChars_repr]
    apply hfraction
    rw [length_drop, hlength]
    omega

/-! ## Texts of doubles -/

def unsignedText (x : Float) : String :=
  if x.isNaN then "NaN"
  else if x.isInf then "inf"
  else if x == 0 then "0"
  else positional listingStyle (shortest .up x).significand.repr
    ((shortest .up x).significand.repr.length + (shortest .up x).exponent)

theorem listingText_eq (x : Float) :
    listingText x = (if x.toBits.toNat < 2 ^ 63 then "" else "-") ++
      unsignedText x := by
  unfold listingText text unsignedText
  by_cases hnan : x.isNaN = true
  · have hsign : x.toBits.toNat < 2 ^ 63 := by
      rw [toBits_of_isNaN hnan]
      decide
    rw [if_pos hnan, if_pos hnan, if_pos hsign, String.empty_append]
  · rw [if_neg hnan, if_neg hnan]
    by_cases hinf : x.isInf = true
    · rw [if_pos hinf, if_pos hinf]
      by_cases hsign : x.toBits.toNat < 2 ^ 63
      · have hlt : ¬ x < 0 :=
          fun h => Nat.not_le.mpr hsign ((lt_zero_of_isInf hinf).mp h)
        rw [if_pos hsign, if_neg hlt]
        rfl
      · have hlt : x < 0 := (lt_zero_of_isInf hinf).mpr (Nat.not_lt.mp hsign)
        rw [if_neg hsign, if_pos hlt]
        rfl
    · rw [if_neg hinf, if_neg hinf]
      unfold finiteText
      by_cases hzero : (x == 0) = true
      · simp [hzero, listingStyle]
      · simp [hzero, listingStyle]

theorem isDigit_of_mem_positional
    {n : ℕ} {point : ℤ}
    (h : c ∈ (positional listingStyle n.repr point).toList) :
    c.isDigit = true ∨ c = '.' := by
  have hzero : ∀ {k : ℕ}, c ∈ replicate k '0' → c.isDigit = true := by
    intro k hc
    rw [eq_of_mem_replicate hc]
    decide
  rw [toList_positional] at h
  split_ifs at h with hleft hright
  · simp only [cons_append, nil_append, mem_cons, mem_append] at h
    rcases h with rfl | rfl | h | h
    · exact .inl (by decide)
    · exact .inr rfl
    · exact .inl (hzero h)
    · exact .inl (isDigit_of_mem_repr h)
  · rcases mem_append.mp h with h | h
    · exact .inl (isDigit_of_mem_repr h)
    · exact .inl (hzero h)
  · rcases mem_append.mp h with h | h
    · exact .inl (isDigit_of_mem_repr (mem_of_mem_take h))
    · rcases mem_cons.mp h with rfl | h
      · exact .inr rfl
      · exact .inl (isDigit_of_mem_repr (mem_of_mem_drop h))

theorem positional_starts (n : ℕ) (point : ℤ) :
    ∃ c rest, (positional listingStyle n.repr point).toList = c :: rest ∧
      c.isDigit = true := by
  rcases exists_repr_eq_cons n with ⟨c, rest, hrepr, hdigit⟩
  rw [toList_positional, hrepr]
  split_ifs with hleft hright
  · exact ⟨'0', _, rfl, by decide⟩
  · exact ⟨c, _, rfl, hdigit⟩
  · rcases htake : point.toNat with _ | k
    · omega
    · exact ⟨c, _, rfl, hdigit⟩

theorem finite_unsignedText
    (hnan : ¬ x.isNaN = true) (hinf : ¬ x.isInf = true) :
    (Interval.ofMagnitude (x.toBits.toNat % 2 ^ 63)).Contains
      (numberOf (unsignedText x).toList) ∧
      ∃ c rest, (unsignedText x).toList = c :: rest ∧ c.isDigit = true := by
  unfold unsignedText
  rw [if_neg hnan, if_neg hinf]
  by_cases hzero : (x == 0) = true
  · rw [if_pos hzero, magnitude_of_beq_zero hzero]
    have hread : numberOf "0".toList = 0 := by
      simp [numberOf_whole, Nat.ofDigitChars]
    rw [hread]
    exact ⟨Interval.contains_zero, '0', [], rfl, by decide⟩
  · rw [if_neg hzero, numberOf_positional]
    exact ⟨shortest_contains (fun h => hzero (beq_zero_of_magnitude h)) .up,
      positional_starts _ _⟩

theorem isNaN_of_unsignedText (h : unsignedText x = "NaN") :
    x.isNaN = true := by
  by_contra hnan
  by_cases hinf : x.isInf = true
  · unfold unsignedText at h
    rw [if_neg hnan, if_pos hinf] at h
    exact absurd h (by decide)
  · rcases (finite_unsignedText hnan hinf).2 with ⟨c, rest, htext, hdigit⟩
    rw [h] at htext
    cases htext
    exact absurd hdigit (by decide)

theorem isInf_of_unsignedText (h : unsignedText x = "inf") :
    x.isInf = true := by
  by_contra hinf
  by_cases hnan : x.isNaN = true
  · unfold unsignedText at h
    rw [if_pos hnan] at h
    exact absurd h (by decide)
  · rcases (finite_unsignedText hnan hinf).2 with ⟨c, rest, htext, hdigit⟩
    rw [h] at htext
    cases htext
    exact absurd hdigit (by decide)

theorem unsignedText_of_isInf (hnan : ¬ x.isNaN = true) (h : x.isInf = true) :
    unsignedText x = "inf" := by
  unfold unsignedText
  rw [if_neg hnan, if_pos h]

theorem unsignedText_of_isNaN (h : x.isNaN = true) : unsignedText x = "NaN" :=
  if_pos h

theorem magnitude_eq_of_unsignedText
    {y : Float} (h : unsignedText x = unsignedText y) :
    x.toBits.toNat % 2 ^ 63 = y.toBits.toNat % 2 ^ 63 := by
  by_cases hnan : x.isNaN = true
  · have hnan' : y.isNaN = true :=
      isNaN_of_unsignedText (h.symm.trans (unsignedText_of_isNaN hnan))
    rw [toBits_of_isNaN hnan, toBits_of_isNaN hnan']
  · have hnan' : ¬ y.isNaN = true := fun hy =>
      hnan (isNaN_of_unsignedText (h.trans (unsignedText_of_isNaN hy)))
    by_cases hinf : x.isInf = true
    · have hinf' : y.isInf = true :=
        isInf_of_unsignedText (h.symm.trans (unsignedText_of_isInf hnan hinf))
      rw [magnitude_of_isInf hinf, magnitude_of_isInf hinf']
    · have hinf' : ¬ y.isInf = true := fun hy =>
        hinf (isInf_of_unsignedText (h.trans (unsignedText_of_isInf hnan' hy)))
      have hx := (finite_unsignedText hnan hinf).1
      have hy := (finite_unsignedText hnan' hinf').1
      rw [← h] at hy
      exact Interval.eq_of_contains hx hy

theorem isAlphanum_of_isDigit (h : c.isDigit = true) : c.isAlphanum = true := by
  rw [Char.isAlphanum, h, Bool.or_true]

theorem isAlphanum_of_mem_unsignedText (h : c ∈ (unsignedText x).toList) :
    c.isAlphanum = true ∨ c = '.' := by
  have hwords : ∀ word ∈ ["NaN", "inf", "0"],
      word.toList.all Char.isAlphanum = true := by
    decide
  unfold unsignedText at h
  split_ifs at h
  · exact .inl (all_eq_true.mp (hwords "NaN" (by decide)) c h)
  · exact .inl (all_eq_true.mp (hwords "inf" (by decide)) c h)
  · exact .inl (all_eq_true.mp (hwords "0" (by decide)) c h)
  · exact (isDigit_of_mem_positional h).imp_left isAlphanum_of_isDigit

theorem isAlphanum_of_mem_listingText (h : c ∈ (listingText x).toList) :
    c.isAlphanum = true ∨ c = '.' ∨ c = '-' := by
  rw [listingText_eq, String.toList_append, mem_append] at h
  rcases h with h | h
  · split_ifs at h
    · cases h
    · exact .inr (.inr (mem_singleton.mp h))
  · exact (isAlphanum_of_mem_unsignedText h).imp_right .inl

/-- No two doubles have the same text in a listing. -/
theorem listingText_injective : Function.Injective listingText := by
  have hminus : ∀ x y : Float, unsignedText x ≠ "-" ++ unsignedText y := by
    intro x y h
    have hmem : '-' ∈ (unsignedText x).toList := by
      rw [h, String.toList_append]
      exact mem_append_left _ (mem_singleton_self '-')
    exact absurd (isAlphanum_of_mem_unsignedText hmem) (by decide)
  intro x y h
  rw [listingText_eq, listingText_eq] at h
  apply eq_of_toBits
  have hx := x.toBits.toNat_lt
  have hy := y.toBits.toNat_lt
  by_cases hsign : x.toBits.toNat < 2 ^ 63
  · by_cases hsign' : y.toBits.toNat < 2 ^ 63
    · rw [if_pos hsign, if_pos hsign', String.empty_append, String.empty_append]
        at h
      have hmagnitude := magnitude_eq_of_unsignedText h
      omega
    · rw [if_pos hsign, if_neg hsign', String.empty_append] at h
      exact absurd h (hminus x y)
  · by_cases hsign' : y.toBits.toNat < 2 ^ 63
    · rw [if_neg hsign, if_pos hsign', String.empty_append] at h
      exact absurd h.symm (hminus y x)
    · rw [if_neg hsign, if_neg hsign', String.append_right_inj] at h
      have hmagnitude := magnitude_eq_of_unsignedText h
      omega

end Decimal
end TileProgram
