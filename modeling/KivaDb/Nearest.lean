import KivaDb.Float
import KivaDb.NumClass
import KivaDb.Decimals

namespace KivaDb.F64

/-- What a float is, with a sign of its own, is the nearest to its units. -/
theorem nearest_units (negative : Bool) (f : F64) :
    nearest negative f.units.natAbs = some ⟨negative, f.exponent, f.fraction⟩ := by
  rw [natAbs_units]
  obtain ⟨sign, ⟨e, he⟩, ⟨fr, hfr⟩⟩ := f
  by_cases hzero : e = 0
  · subst hzero
    have hunits : mantissa ⟨sign, ⟨0, he⟩, ⟨fr, hfr⟩⟩ * 2 ^ (0 - 1) = fr := by
      rw [mantissa, if_pos rfl, Nat.zero_sub, pow_zero, Nat.mul_one]
    show nearest negative (mantissa ⟨sign, ⟨0, he⟩, ⟨fr, hfr⟩⟩ * 2 ^ (0 - 1)) = _
    rw [hunits, nearest, dif_pos hfr]
    rfl
  · have hm : mantissa ⟨sign, ⟨e, he⟩, ⟨fr, hfr⟩⟩ = 2 ^ 52 + fr := if_neg hzero
    show nearest negative (mantissa ⟨sign, ⟨e, he⟩, ⟨fr, hfr⟩⟩ * 2 ^ (e - 1)) = _
    rw [hm]
    have hpos := Nat.two_pow_pos (e - 1)
    have hlo : 2 ^ (52 + (e - 1)) ≤ (2 ^ 52 + fr) * 2 ^ (e - 1) := by
      rw [pow_add]
      exact Nat.mul_le_mul_right _ (Nat.le_add_right _ _)
    have hhi : (2 ^ 52 + fr) * 2 ^ (e - 1) < 2 ^ (52 + (e - 1) + 1) := by
      rw [show 52 + (e - 1) + 1 = 53 + (e - 1) by omega, pow_add]
      exact Nat.mul_lt_mul_of_pos_right (by omega) hpos
    have hne : (2 ^ 52 + fr) * 2 ^ (e - 1) ≠ 0 := Nat.mul_ne_zero (by omega) (by omega)
    have hlog : ((2 ^ 52 + fr) * 2 ^ (e - 1)).log2 = 52 + (e - 1) := (Nat.log2_eq_iff hne).mpr ⟨hlo, hhi⟩
    have hbig : ¬ (2 ^ 52 + fr) * 2 ^ (e - 1) < 2 ^ 52 :=
      not_lt.mpr ((Nat.pow_le_pow_right (by decide) (Nat.le_add_right _ _)).trans hlo)
    have hround : rounded ((2 ^ 52 + fr) * 2 ^ (e - 1)) (e - 1) = 2 ^ 52 + fr :=
      Nat.eq_of_mul_eq_mul_right hpos (rounded_exact (Dvd.intro_left _ rfl))
    rw [nearest, dif_neg hbig, hlog, Nat.add_sub_cancel_left, hround, scaled]
    have hexp : (if 2 ^ 52 + fr = 2 ^ 53 then e - 1 + 2 else e - 1 + 1) = e := by
      rw [if_neg (by omega)]
      omega
    have hfrac : (2 ^ 52 + fr) % 2 ^ 52 = fr := by
      rw [Nat.add_mod_left, Nat.mod_eq_of_lt hfr]
    simp only [hexp, hfrac, dif_pos he]

/-- `n / d` to the nearest integer, the even one of two. -/
def quotient (n d : Nat) : Nat :=
  if d < 2 * (n % d) ∨ (2 * (n % d) = d ∧ n / d % 2 = 1) then n / d + 1 else n / d

/-- The nearest float to `n / d`. -/
def ratio (negative : Bool) (n d : Nat) : Option F64 :=
  let q := n * 2 ^ 1074 / d
  if q < 2 ^ 52 then nearest negative (quotient (n * 2 ^ 1074) d)
  else scaled negative (quotient (n * 2 ^ 1074) (d * 2 ^ (q.log2 - 52))) (q.log2 - 52)

/-- The nearest float to a decimal, as its text is parsed. -/
def ofDecimal (d : Decimal) : Option F64 := ratio (d.mantissa < 0) d.mantissa.natAbs (10 ^ d.scale)

/-- The quotient, rounded to the nearest; nothing where it is no number. -/
def div (f g : F64) : Option F64 :=
  if g.units = 0 then none else ratio (f.negative != g.negative) f.units.natAbs g.units.natAbs

example : ofDecimal ⟨-125, 1, by decide, by decide⟩ = some ⟨true, 1026, 2533274790395904⟩ := by decide +kernel

example : (ofInt (-5)).div (ofInt 2) = some ⟨true, 1024, 1125899906842624⟩ := by decide +kernel

theorem quotient_mul {u d : Nat} (hd : 0 < d) (k : Nat) : quotient (d * u) (d * 2 ^ k) = rounded u k := by
  have hdiv : d * u / (d * 2 ^ k) = u / 2 ^ k := Nat.mul_div_mul_left _ _ hd
  have hmod : d * u % (d * 2 ^ k) = d * (u % 2 ^ k) := Nat.mul_mod_mul_left _ _ _
  have hlt : d * 2 ^ k < 2 * (d * (u % 2 ^ k)) ↔ 2 ^ k < 2 * (u % 2 ^ k) := by
    rw [Nat.mul_left_comm, Nat.mul_lt_mul_left hd]
  have heq : 2 * (d * (u % 2 ^ k)) = d * 2 ^ k ↔ 2 * (u % 2 ^ k) = 2 ^ k := by
    rw [Nat.mul_left_comm, Nat.mul_right_inj hd.ne']
  unfold quotient rounded
  simp only [hdiv, hmod, hlt, heq, gt_iff_lt]

theorem abs_value_units (f : F64) : |f.value| = f.units.natAbs / 2 ^ 1074 := by
  rw [abs_value, natAbs_units, shift]
  push_cast
  rfl

theorem abs_value_decimal (d : Decimal) : |d.value| = d.mantissa.natAbs / 10 ^ d.scale := by
  have hpow : (0 : ℚ) < 10 ^ d.scale := by positivity
  rw [Decimal.value, abs_div, abs_of_pos hpow, ← Int.cast_abs, Int.abs_eq_natAbs, Int.cast_natCast]

theorem value_lt_zero {d : Decimal} : d.value < 0 ↔ d.mantissa < 0 := by
  rw [Decimal.value, div_neg_iff]
  have hpow : (0 : ℚ) < 10 ^ d.scale := by positivity
  constructor
  · rintro (⟨-, h⟩ | ⟨h, -⟩)
    · exact absurd h (not_lt.mpr hpow.le)
    · exact_mod_cast h
  · intro h
    exact .inr ⟨by exact_mod_cast h, hpow⟩

/-- The nearest float to a fraction that a float equals, up to its sign. -/
theorem ratio_eq {negative : Bool} {f : F64} {n d : Nat} (hd : 0 < d) (h : n * 2 ^ 1074 = d * f.units.natAbs) :
    ratio negative n d = some ⟨negative, f.exponent, f.fraction⟩ := by
  have hq : d * f.units.natAbs / d = f.units.natAbs := Nat.mul_div_cancel_left _ hd
  have hwhole : quotient (d * f.units.natAbs) d = f.units.natAbs := by
    have hzero := quotient_mul (u := f.units.natAbs) hd 0
    have hexact := rounded_exact (n := f.units.natAbs) (k := 0) (by simp)
    rw [pow_zero, Nat.mul_one] at hzero hexact
    rw [hzero, hexact]
  rw [ratio, h]
  simp only [hq, hwhole, quotient_mul hd]
  split
  · exact nearest_units _ f
  · next hbig =>
      rw [← nearest_units, nearest, dif_neg hbig]

/-- Parsing a decimal that a float equals gives its parts. -/
theorem ofDecimal_eq {f : F64} {d : Decimal} (h : f.value = d.value) :
    ofDecimal d = some ⟨d.mantissa < 0, f.exponent, f.fraction⟩ := by
  have hpow : 0 < 10 ^ d.scale := Nat.pow_pos (by decide)
  have hn : d.mantissa.natAbs * 2 ^ 1074 = 10 ^ d.scale * f.units.natAbs := by
    have habs : (d.mantissa.natAbs : ℚ) / 10 ^ d.scale = f.units.natAbs / 2 ^ 1074 := by
      rw [← abs_value_decimal, ← abs_value_units, h]
    rw [div_eq_div_iff (by positivity) (by positivity), mul_comm (f.units.natAbs : ℚ)] at habs
    exact_mod_cast habs
  exact ratio_eq hpow hn

theorem ofDecimal_exact {f : F64} {d : Decimal} (h : f.value = d.value) : ∃ g, ofDecimal d = some g ∧ g.value = d.value := by
  refine ⟨_, ofDecimal_eq h, ?_⟩
  generalize hg : (⟨d.mantissa < 0, f.exponent, f.fraction⟩ : F64) = g
  have hmantissa : g.mantissa = f.mantissa := by
    rw [← hg]
    rfl
  have habs : |g.value| = |d.value| := by
    rw [← h, abs_value, abs_value, hmantissa, ← hg]
    rfl
  have hsign : g.value < 0 ↔ d.value < 0 := by
    rw [← negative_iff, hmantissa, ← hg, value_lt_zero, decide_eq_true_eq]
    refine and_iff_left_of_imp fun hneg hzero => ?_
    have hlt := value_lt_zero.mpr hneg
    rw [← h, ← negative_iff] at hlt
    exact hlt.2 hzero
  rcases abs_eq_abs.mp habs with heq | heq
  · exact heq
  · rcases lt_trichotomy d.value 0 with hd | hd | hd
    · have := hsign.mpr hd
      linarith
    · rw [heq, hd, neg_zero]
    · have := hsign.not.mpr (not_lt.mpr hd.le)
      linarith

end KivaDb.F64
