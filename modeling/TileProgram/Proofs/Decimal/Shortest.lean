import TileProgram.Decimal.Shortest
import Mathlib.Algebra.Order.Field.Power
import Mathlib.Data.Rat.Cast.Order
import Mathlib.Order.Monotone.Basic
import Mathlib.Tactic.FieldSimp
import Mathlib.Tactic.Linarith
import Mathlib.Tactic.Ring

/-!
# Shortest decimals lie in their interval

The search ends within seventeen digits, since the grid of seventeen digits is
finer than the interval of any double, so the decimal found is one of the reals
that round to the double.  The intervals of neighbours meet at an end that
belongs to one of them only, so no decimal is found for two doubles.
-/

namespace TileProgram
namespace Decimal

def Digits.value (d : Digits) : ℚ := d.significand * 10 ^ d.exponent

theorem ten_zpow_mul (grid : ℤ) :
    (10 : ℚ) ^ grid * 10 ^ (-grid).toNat = 10 ^ grid.toNat := by
  rcases Int.eq_nat_or_neg grid with ⟨n, rfl | rfl⟩
  · simp
  · simp

theorem Digits.value_descend (significand : ℕ) (exponent : ℤ) (fuel : ℕ) :
    (Digits.strip.descend significand exponent fuel).value =
      significand * 10 ^ exponent := by
  induction fuel generalizing significand exponent with
  | zero => rfl
  | succ fuel ih =>
      unfold Digits.strip.descend
      split
      · rename_i h
        have hten : significand = significand / 10 * 10 := by omega
        rw [ih, zpow_add_one₀ (by norm_num)]
        nth_rewrite 2 [hten]
        push_cast
        ring
      · rfl

theorem Digits.value_strip (d : Digits) : d.strip.value = d.value :=
  value_descend d.significand d.exponent d.significand

namespace Interval

def Contains (i : Interval) (q : ℚ) : Prop :=
  if i.closed then i.lower ≤ q * i.scale ∧ q * i.scale ≤ i.upper
  else i.lower < q * i.scale ∧ q * i.scale < i.upper

structure WellFormed (i : Interval) : Prop where
  lower_lt : i.lower < i.value
  lt_upper : i.value < i.upper
  scale_pos : 0 < i.scale

section

variable {i : Interval}

/-! ## The search -/

theorem holds_inUnits_iff (grid : ℤ) (d : ℕ) :
    (i.inUnits grid).holds d = true ↔ i.Contains (d * 10 ^ grid) := by
  have hpos : (0 : ℚ) < 10 ^ (-grid).toNat := by positivity
  have hscaled : (d : ℚ) * 10 ^ grid * i.scale * 10 ^ (-grid).toNat
      = (d * (i.scale * 10 ^ grid.toNat) : ℕ) := by
    calc (d : ℚ) * 10 ^ grid * i.scale * 10 ^ (-grid).toNat
        = d * (i.scale * (10 ^ grid * 10 ^ (-grid).toNat)) := by ring
      _ = (d * (i.scale * 10 ^ grid.toNat) : ℕ) := by
        rw [ten_zpow_mul]
        push_cast
        rfl
  have hlower : ∀ e : ℕ,
      e * 10 ^ (-grid).toNat ≤ d * (i.scale * 10 ^ grid.toNat) ↔
      (e : ℚ) ≤ d * 10 ^ grid * i.scale := by
    intro e
    rw [← mul_le_mul_iff_left₀ hpos, hscaled]
    exact_mod_cast Iff.rfl
  have hupper : ∀ e : ℕ,
      d * (i.scale * 10 ^ grid.toNat) ≤ e * 10 ^ (-grid).toNat ↔
      (d : ℚ) * 10 ^ grid * i.scale ≤ e := by
    intro e
    rw [← mul_le_mul_iff_left₀ hpos, hscaled]
    exact_mod_cast Iff.rfl
  unfold holds Contains inUnits
  cases i.closed with
  | true => simp [hlower, hupper]
  | false => simp [← not_le, hlower, hupper]

theorem holds_of_nearest? {tie : Tie} {d : ℕ} (h : i.nearest? tie = some d) :
    i.holds d = true := by
  unfold nearest? at h
  grind

/-- An interval wider than the unit holds an integer next to the value. -/
theorem exists_nearest?
    (h : i.WellFormed) (hwide : i.lower + i.scale < i.upper) (tie : Tie) :
    ∃ d, i.nearest? tie = some d := by
  have hbelow : i.value / i.scale * i.scale ≤ i.value :=
    Nat.div_mul_le_self i.value i.scale
  have habove : i.value < (i.value / i.scale + 1) * i.scale := by
    rw [Nat.mul_comm]
    exact Nat.lt_mul_div_succ i.value h.scale_pos
  have hstep : (i.value / i.scale + 1) * i.scale = i.value / i.scale * i.scale +
      i.scale := by
    ring
  have hneighbour : i.holds (i.value / i.scale) = true ∨
      i.holds (i.value / i.scale + 1) = true := by
    have hlower := h.lower_lt
    have hupper := h.lt_upper
    unfold holds
    cases i.closed with
    | true => simp; omega
    | false => simp; omega
  cases hresult : i.nearest? tie with
  | some d => exact ⟨d, rfl⟩
  | none =>
      unfold nearest? at hresult
      dsimp only at hresult
      split at hresult
      · split at hresult <;> cases hresult
      · cases hresult
      · cases hresult
      · simp_all

theorem search_contains
    {tie : Tie} {point : ℤ} {digits left : ℕ}
    (h : ∃ j < left,
      ∃ d, (i.inUnits (point - (digits + j : ℕ))).nearest? tie = some d) :
    i.Contains (i.search tie point digits left).value := by
  induction left generalizing digits with
  | zero =>
      rcases h with ⟨j, hj, _⟩
      exact absurd hj (Nat.not_lt_zero j)
  | succ left ih =>
      unfold search
      split
      · rename_i d hd
        exact (holds_inUnits_iff _ d).mp (holds_of_nearest? hd)
      · rename_i hnone
        apply ih
        rcases h with ⟨j, hj, d, hd⟩
        cases j with
        | zero =>
            rw [Nat.add_zero, hnone] at hd
            cases hd
        | succ j =>
            refine ⟨j, Nat.lt_of_succ_lt_succ hj, d, ?_⟩
            rw [Nat.add_right_comm]
            exact hd

theorem point_eq (i : Interval) {places : ℕ} (h : places = 400) :
    i.point = ((i.value * 10 ^ places / i.scale).repr.length : ℤ) - 400 := by
  unfold point
  rw [← h]
  rfl

theorem ten_zpow_point_le
    {places : ℕ} (hplaces : places = 400)
    (hscale : i.scale ≤ i.value * 10 ^ places) (hpos : 0 < i.scale) :
    (10 : ℚ) ^ (i.point - 1) * i.scale ≤ i.value := by
  have hone : 1 ≤ i.value * 10 ^ places / i.scale :=
    (Nat.one_le_div_iff hpos).mpr hscale
  rcases hlength : (i.value * 10 ^ places / i.scale).repr.length with _ | n
  · exact absurd hlength (Nat.length_repr_pos.ne')
  · have hdigits : 10 ^ n ≤ i.value * 10 ^ places / i.scale := by
      by_contra hlt
      rcases Nat.eq_zero_or_pos n with rfl | hn
      · exact hlt hone
      · have hshort := (Nat.length_repr_le_iff hn).mpr (Nat.lt_of_not_le hlt)
        omega
    have hle : 10 ^ n * i.scale ≤ i.value * 10 ^ places :=
      (Nat.mul_le_mul_right _ hdigits).trans (Nat.div_mul_le_self _ _)
    have hpoint : i.point - 1 = (n : ℤ) - places := by
      rw [point_eq i hplaces, hlength, hplaces]
      omega
    rw [hpoint, zpow_sub₀ (by norm_num), zpow_natCast, zpow_natCast,
      div_mul_eq_mul_div, div_le_iff₀ (by positivity)]
    exact_mod_cast hle

theorem WellFormed.inUnits (h : i.WellFormed) (grid : ℤ) :
    (i.inUnits grid).WellFormed where
  lower_lt := Nat.mul_lt_mul_of_pos_right h.lower_lt (Nat.pow_pos (by decide))
  lt_upper := Nat.mul_lt_mul_of_pos_right h.lt_upper (Nat.pow_pos (by decide))
  scale_pos := Nat.mul_pos h.scale_pos (Nat.pow_pos (by decide))

theorem inUnits_wide
    {grid : ℤ} (h : i.lower + 10 ^ grid * i.scale < (i.upper : ℚ)) :
    (i.inUnits grid).lower + (i.inUnits grid).scale <
      (i.inUnits grid).upper := by
  have hpos : (0 : ℚ) < 10 ^ (-grid).toNat := by positivity
  have hscaled := mul_lt_mul_of_pos_right h hpos
  have hsplit : (i.lower + 10 ^ grid * i.scale : ℚ) * 10 ^ (-grid).toNat
      = (i.lower * 10 ^ (-grid).toNat + i.scale * 10 ^ grid.toNat : ℕ) := by
    calc (i.lower + 10 ^ grid * i.scale : ℚ) * 10 ^ (-grid).toNat
        = i.lower * 10 ^ (-grid).toNat +
          i.scale * (10 ^ grid * 10 ^ (-grid).toNat) := by ring
      _ = (i.lower * 10 ^ (-grid).toNat + i.scale * 10 ^ grid.toNat : ℕ) := by
        rw [ten_zpow_mul]
        push_cast
        rfl
  rw [hsplit] at hscaled
  exact_mod_cast hscaled

/-- A relative width above `10 ^ -16` is enough for the search to find a
decimal. -/
theorem search_point_contains
    (h : i.WellFormed) {places : ℕ} (hplaces : places = 400)
    (hscale : i.scale ≤ i.value * 10 ^ places)
    (hwide : i.lower * 10 ^ 16 + i.value < i.upper * 10 ^ 16) (tie : Tie) :
    i.Contains (i.search tie i.point 1 17).value := by
  have hpoint := ten_zpow_point_le hplaces hscale h.scale_pos
  have hunit : (10 : ℚ) ^ (i.point - 17) * 10 ^ 16 = 10 ^ (i.point - 1) := by
    rw [← zpow_natCast, ← zpow_add₀ (by norm_num)]
    congr 1
    omega
  have hfine : i.lower + 10 ^ (i.point - (1 + 16 : ℕ)) * i.scale <
      (i.upper : ℚ) := by
    have hcast : (i.lower * 10 ^ 16 + i.value : ℚ) < i.upper * 10 ^ 16 := by
      exact_mod_cast hwide
    rw [← hunit] at hpoint
    push_cast
    linarith
  exact search_contains
    ⟨16, by decide, exists_nearest? (h.inUnits _) (inUnits_wide hfine) tie⟩

/-! ## Intervals of doubles -/

theorem one_shiftLeft_pos (n : ℕ) : 0 < 1 <<< n := by
  rw [Nat.one_shiftLeft]
  exact Nat.two_pow_pos n

theorem wellFormed_ofBinary
    {mantissa : ℕ} (h : 0 < mantissa) (exponent : ℤ) (narrow : Bool) :
    (ofBinary mantissa exponent narrow).WellFormed where
  lower_lt :=
    Nat.mul_lt_mul_of_pos_right (by split <;> omega) (one_shiftLeft_pos _)
  lt_upper := Nat.mul_lt_mul_of_pos_right (by omega) (one_shiftLeft_pos _)
  scale_pos := one_shiftLeft_pos _

theorem search_ofBinary_contains
    {mantissa : ℕ} {exponent : ℤ} {narrow : Bool} (hpos : 0 < mantissa)
    (hmantissa : mantissa < 2 ^ 53) (hexponent : -1074 ≤ exponent)
    (hnarrow : narrow = true → mantissa = 2 ^ 52) (tie : Tie) :
    (ofBinary mantissa exponent narrow).Contains
      ((ofBinary mantissa exponent narrow).search tie
        (ofBinary mantissa exponent narrow).point 1 17).value := by
  have hgrow := one_shiftLeft_pos (exponent - 2).toNat
  have hscale : ∀ places,
      places = 400 → (ofBinary mantissa exponent narrow).scale ≤
      (ofBinary mantissa exponent narrow).value * 10 ^ places := by
    intro places hplaces
    have hvalue : 0 < (ofBinary mantissa exponent narrow).value := by
      change 0 < 4 * mantissa * 1 <<< (exponent - 2).toNat
      positivity
    calc (ofBinary mantissa exponent narrow).scale
        = 2 ^ (2 - exponent).toNat := Nat.one_shiftLeft _
      _ ≤ 2 ^ (3 * places) := Nat.pow_le_pow_right (by decide) (by omega)
      _ = (2 ^ 3) ^ places := pow_mul 2 3 places
      _ ≤ 10 ^ places := Nat.pow_le_pow_left (by decide) places
      _ ≤ (ofBinary mantissa exponent narrow).value * 10 ^ places :=
        Nat.le_mul_of_pos_left _ hvalue
  have hwide : (4 * mantissa - if narrow then 1 else 2) * 10 ^ 16 + 4 * mantissa
      < (4 * mantissa + 2) * 10 ^ 16 := by
    cases narrow with
    | true =>
        rw [hnarrow rfl]
        decide
    | false =>
        simp only [Bool.false_eq_true, if_false]
        omega
  refine search_point_contains (wellFormed_ofBinary hpos exponent narrow)
    rfl (hscale _ rfl) ?_ tie
  calc (4 * mantissa - if narrow then 1 else 2) *
          1 <<< (exponent - 2).toNat * 10 ^ 16
        + 4 * mantissa * 1 <<< (exponent - 2).toNat
      = ((4 * mantissa - if narrow then 1 else 2) * 10 ^ 16 + 4 * mantissa)
          * 1 <<< (exponent - 2).toNat := by ring
    _ < (4 * mantissa + 2) * 10 ^ 16 * 1 <<< (exponent - 2).toNat :=
      Nat.mul_lt_mul_of_pos_right hwide hgrow
    _ = (4 * mantissa + 2) * 1 <<< (exponent - 2).toNat * 10 ^ 16 := by ring

def lowerEnd (i : Interval) : ℚ := i.lower / i.scale

def upperEnd (i : Interval) : ℚ := i.upper / i.scale

theorem Contains.bounds {q : ℚ} (h : i.Contains q) (hpos : 0 < i.scale) :
    i.lowerEnd ≤ q ∧ q ≤ i.upperEnd ∧
      (q = i.lowerEnd ∨ q = i.upperEnd → i.closed = true) := by
  have hscale : (0 : ℚ) < i.scale := by exact_mod_cast hpos
  unfold lowerEnd upperEnd
  rw [div_le_iff₀ hscale, le_div_iff₀ hscale, eq_div_iff hscale.ne',
    eq_div_iff hscale.ne']
  unfold Contains at h
  split at h
  · rename_i hclosed
    exact ⟨h.1, h.2, fun _ => hclosed⟩
  · refine ⟨h.1.le, h.2.le, fun hend => ?_⟩
    rcases hend with hend | hend
    · exact absurd hend h.1.ne'
    · exact absurd hend h.2.ne

theorem two_zpow_eq (exponent : ℤ) :
    (2 : ℚ) ^ (exponent - 2)
      = (1 <<< (exponent - 2).toNat : ℕ) /
        (1 <<< (2 - exponent).toNat : ℕ) := by
  rw [Nat.one_shiftLeft, Nat.one_shiftLeft, ← neg_sub exponent 2]
  rcases Int.eq_nat_or_neg (exponent - 2) with ⟨n, h | h⟩
  · simp [h]
  · simp [h]

theorem lowerEnd_ofBinary (mantissa : ℕ) (exponent : ℤ) (narrow : Bool) :
    (ofBinary mantissa exponent narrow).lowerEnd
      = (4 * mantissa - if narrow then 1 else 2 : ℕ) * 2 ^ (exponent - 2) := by
  unfold lowerEnd ofBinary
  rw [two_zpow_eq]
  push_cast
  ring

theorem upperEnd_ofBinary (mantissa : ℕ) (exponent : ℤ) (narrow : Bool) :
    (ofBinary mantissa exponent narrow).upperEnd
      = (4 * mantissa + 2 : ℕ) * 2 ^ (exponent - 2) := by
  unfold upperEnd ofBinary
  rw [two_zpow_eq]
  push_cast
  ring

end

/-- The interval of the double whose bits, without the sign, are `magnitude`. -/
def ofMagnitude (magnitude : ℕ) : Interval :=
  let biased : ℕ := magnitude / 2 ^ 52
  let fraction : ℕ := magnitude % 2 ^ 52
  if biased = 0 then ofBinary fraction (-1074) false
  else ofBinary (2 ^ 52 + fraction) ((biased : ℤ) - 1075)
    (fraction = 0 && biased > 1)

theorem ofMagnitude_subnormal {fraction : ℕ} (h : fraction < 2 ^ 52) :
    ofMagnitude fraction = ofBinary fraction (-1074) false := by
  unfold ofMagnitude
  rw [Nat.div_eq_of_lt h, Nat.mod_eq_of_lt h]
  rfl

theorem ofMagnitude_normal
    {biased fraction : ℕ} (hbiased : 0 < biased) (h : fraction < 2 ^ 52) :
    ofMagnitude (biased * 2 ^ 52 + fraction)
      = ofBinary (2 ^ 52 + fraction) (biased - 1075)
        (fraction = 0 && biased > 1) := by
  have hdiv : (biased * 2 ^ 52 + fraction) / 2 ^ 52 = biased := by omega
  have hmod : (biased * 2 ^ 52 + fraction) % 2 ^ 52 = fraction := by omega
  unfold ofMagnitude
  rw [hdiv, hmod]
  exact if_neg hbiased.ne'

theorem subnormal_or_normal (magnitude : ℕ) : magnitude < 2 ^ 52 ∨
    ∃ biased fraction, 0 < biased ∧ fraction < 2 ^ 52 ∧
      magnitude = biased * 2 ^ 52 + fraction := by
  rcases Nat.lt_or_ge magnitude (2 ^ 52) with h | h
  · exact .inl h
  · exact .inr
      ⟨magnitude / 2 ^ 52, magnitude % 2 ^ 52, by omega, by omega, by omega⟩

theorem upperEnd_ofMagnitude (magnitude : ℕ) :
    (ofMagnitude magnitude).upperEnd =
      (ofMagnitude (magnitude + 1)).lowerEnd := by
  rcases subnormal_or_normal magnitude with
    h | ⟨biased, fraction, hbiased, hfraction, rfl⟩
  · have hmantissa : 4 * magnitude + 2 = 4 * (magnitude + 1) - 2 := by omega
    rw [ofMagnitude_subnormal h, upperEnd_ofBinary, hmantissa]
    rcases Nat.lt_or_ge (magnitude + 1) (2 ^ 52) with hnext | hnext
    · rw [ofMagnitude_subnormal hnext, lowerEnd_ofBinary]
      rfl
    · have hfirst : magnitude + 1 = 1 * 2 ^ 52 + 0 := by omega
      rw [hfirst, ofMagnitude_normal (by decide) (by decide), lowerEnd_ofBinary]
      rfl
  · rw [ofMagnitude_normal hbiased hfraction, upperEnd_ofBinary]
    rcases Nat.lt_or_ge (fraction + 1) (2 ^ 52) with hnext | hnext
    · have hmantissa : 4 * (2 ^ 52 + fraction) + 2 =
          4 * (2 ^ 52 + (fraction + 1)) - 2 := by
        omega
      rw [Nat.add_assoc, ofMagnitude_normal hbiased hnext, lowerEnd_ofBinary,
        hmantissa]
      rfl
    · -- the next double is a power of two, and the distance doubles there
      have hfirst : biased * 2 ^ 52 + fraction + 1 =
          (biased + 1) * 2 ^ 52 + 0 := by
        omega
      have hmantissa : 4 * (2 ^ 52 + fraction) + 2 =
          (4 * (2 ^ 52 + 0) - 1) * 2 := by
        omega
      have hexponent : ((biased + 1 : ℕ) : ℤ) - 1075 - 2 =
          biased - 1075 - 2 + 1 := by
        push_cast
        ring
      have hnarrow : (decide (0 = 0) && decide (biased + 1 > 1)) = true := by
        simp [hbiased]
      rw [hfirst, ofMagnitude_normal (Nat.succ_pos biased) (by decide),
        lowerEnd_ofBinary, hmantissa, hexponent, hnarrow, if_pos rfl,
        zpow_add_one₀ (by norm_num), Nat.cast_mul]
      ring

theorem lowerEnd_lt_upperEnd_ofBinary
    (mantissa : ℕ) (exponent : ℤ) (narrow : Bool) :
    (ofBinary mantissa exponent narrow).lowerEnd <
      (ofBinary mantissa exponent narrow).upperEnd := by
  have hlt : (4 * mantissa - if narrow then 1 else 2) < 4 * mantissa + 2 := by
    omega
  rw [lowerEnd_ofBinary, upperEnd_ofBinary]
  apply mul_lt_mul_of_pos_right
  · exact_mod_cast hlt
  · positivity

theorem exists_ofBinary (magnitude : ℕ) :
    ∃ mantissa exponent narrow,
    ofMagnitude magnitude = ofBinary mantissa exponent narrow ∧
    mantissa < 2 ^ 53 ∧
      -1074 ≤ exponent ∧ (narrow = true → mantissa = 2 ^ 52) ∧
      mantissa % 2 = magnitude % 2 ∧ (0 < magnitude → 0 < mantissa) := by
  rcases subnormal_or_normal magnitude with
    h | ⟨biased, fraction, hbiased, hfraction, rfl⟩
  · exact ⟨_, _, _, ofMagnitude_subnormal h, by omega, le_rfl, nofun, rfl, id⟩
  · refine ⟨_, _, _, ofMagnitude_normal hbiased hfraction, by omega, by omega,
      ?_, by omega, by omega⟩
    intro hnarrow
    rw [Bool.and_eq_true, decide_eq_true_eq] at hnarrow
    rw [hnarrow.1, Nat.add_zero]

theorem lowerEnd_lt_upperEnd (magnitude : ℕ) :
    (ofMagnitude magnitude).lowerEnd < (ofMagnitude magnitude).upperEnd := by
  rcases exists_ofBinary magnitude with ⟨mantissa, exponent, narrow, heq, _⟩
  rw [heq]
  exact lowerEnd_lt_upperEnd_ofBinary mantissa exponent narrow

theorem closed_ofMagnitude (magnitude : ℕ) :
    (ofMagnitude magnitude).closed = true ↔ magnitude % 2 = 0 := by
  rcases exists_ofBinary magnitude with
    ⟨mantissa, exponent, narrow, heq, _, _, _, hparity, _⟩
  rw [heq, ← hparity]
  exact decide_eq_true_iff

theorem scale_ofMagnitude_pos (magnitude : ℕ) :
    0 < (ofMagnitude magnitude).scale := by
  rcases exists_ofBinary magnitude with ⟨mantissa, exponent, narrow, heq, _⟩
  rw [heq]
  exact one_shiftLeft_pos _

theorem search_ofMagnitude_contains
    {magnitude : ℕ} (hpos : 0 < magnitude) (tie : Tie) :
    (ofMagnitude magnitude).Contains
      ((ofMagnitude magnitude).search tie
        (ofMagnitude magnitude).point 1 17).value := by
  rcases exists_ofBinary magnitude with
    ⟨mantissa, exponent, narrow, heq, hmantissa, hexponent, hnarrow, _,
      hmantissaPos⟩
  rw [heq]
  exact search_ofBinary_contains (hmantissaPos hpos) hmantissa hexponent
    hnarrow tie

theorem strictMono_lowerEnd :
    StrictMono fun magnitude => (ofMagnitude magnitude).lowerEnd := by
  apply strictMono_nat_of_lt_succ
  intro magnitude
  rw [← upperEnd_ofMagnitude]
  exact lowerEnd_lt_upperEnd magnitude

theorem not_contains_of_lt
    {a b : ℕ} (h : a < b) {q : ℚ} (ha : (ofMagnitude a).Contains q) :
    ¬ (ofMagnitude b).Contains q := by
  intro hb
  rcases ha.bounds (scale_ofMagnitude_pos a) with ⟨_, hupper, hclosed⟩
  rcases hb.bounds (scale_ofMagnitude_pos b) with ⟨hlower, _, hclosed'⟩
  have hnext : (ofMagnitude a).upperEnd ≤ (ofMagnitude b).lowerEnd := by
    rw [upperEnd_ofMagnitude]
    exact strictMono_lowerEnd.monotone h
  have heq : q = (ofMagnitude a).upperEnd :=
    le_antisymm hupper (hnext.trans hlower)
  have heq' : q = (ofMagnitude b).lowerEnd :=
    le_antisymm (hupper.trans hnext) hlower
  -- the shared end belongs to both, so both are even, and there is a double
  -- between them
  have heven := (closed_ofMagnitude a).mp (hclosed (.inr heq))
  have heven' := (closed_ofMagnitude b).mp (hclosed' (.inl heq'))
  have hbetween : a + 1 < b := by omega
  have hgap := strictMono_lowerEnd hbetween
  dsimp only at hgap
  rw [← upperEnd_ofMagnitude, ← heq, ← heq'] at hgap
  exact lt_irrefl q hgap

theorem eq_of_contains
    {a b : ℕ} {q : ℚ} (ha : (ofMagnitude a).Contains q)
    (hb : (ofMagnitude b).Contains q) : a = b := by
  rcases Nat.lt_trichotomy a b with hlt | heq | hlt
  · exact absurd hb (not_contains_of_lt hlt ha)
  · exact heq
  · exact absurd ha (not_contains_of_lt hlt hb)

theorem contains_zero : (ofMagnitude 0).Contains 0 := by
  rw [ofMagnitude_subnormal (by decide)]
  constructor
  · simp [ofBinary]
  · rw [zero_mul]
    exact Nat.cast_nonneg _

end Interval

theorem shortest_eq (tie : Tie) (x : Float) :
    shortest tie x
      = ((Interval.ofMagnitude (x.toBits.toNat % 2 ^ 63)).search tie
          (Interval.ofMagnitude (x.toBits.toNat % 2 ^ 63)).point
          1 17).strip := by
  have hbiased : x.toBits.toNat >>> 52 % 0x800 =
      x.toBits.toNat % 2 ^ 63 / 2 ^ 52 := by
    rw [Nat.shiftRight_eq_div_pow]
    omega
  have hfraction : x.toBits.toNat % 0x10000000000000 =
      x.toBits.toNat % 2 ^ 63 % 2 ^ 52 := by
    omega
  unfold shortest Interval.ofMagnitude
  dsimp only
  rw [hbiased, hfraction]
  rfl

/-- The shortest decimal rounds to the double. -/
theorem shortest_contains
    {x : Float} (h : x.toBits.toNat % 2 ^ 63 ≠ 0) (tie : Tie) :
    (Interval.ofMagnitude (x.toBits.toNat % 2 ^ 63)).Contains
      (shortest tie x).value := by
  rw [shortest_eq, Digits.value_strip]
  exact Interval.search_ofMagnitude_contains (Nat.pos_of_ne_zero h) tie

end Decimal
end TileProgram
