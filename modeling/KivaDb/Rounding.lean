import KivaDb.Nearest
import KivaDb.FromJson

namespace KivaDb

namespace F64

/-- The units of the nearest double. -/
def roundUnits (n : Nat) : Nat := if n < 2 ^ 52 then n else rounded n (n.log2 - 52) * 2 ^ (n.log2 - 52)

/-- As `roundUnits`, with a sign. -/
def roundSigned (z : Int) : Int := if z < 0 then -roundUnits z.natAbs else roundUnits z.natAbs

theorem rounded_mono (k : Nat) {n m : Nat} (h : n ≤ m) : rounded n k ≤ rounded m k := by
  have hdiv : n / 2 ^ k ≤ m / 2 ^ k := Nat.div_le_div_right h
  have hn := Nat.div_add_mod n (2 ^ k)
  have hm := Nat.div_add_mod m (2 ^ k)
  rcases hdiv.lt_or_eq with hlt | heq
  · have hup : rounded n k ≤ n / 2 ^ k + 1 := by
      unfold rounded
      split <;> omega
    have hdown : m / 2 ^ k ≤ rounded m k := by
      unfold rounded
      split <;> omega
    omega
  · have hmod : n % 2 ^ k ≤ m % 2 ^ k := by
      rw [heq] at hn
      omega
    unfold rounded
    rw [heq]
    split <;> split <;> omega

theorem le_roundUnits {n : Nat} (h : ¬ n < 2 ^ 52) :
    2 ^ (n.log2 - 52) * 2 ^ 52 ≤ roundUnits n ∧ roundUnits n ≤ 2 ^ (n.log2 - 52) * 2 ^ 53 := by
  obtain ⟨hlo, hhi⟩ := top_bits h
  obtain ⟨hlo, hhi⟩ := rounded_bits hlo hhi
  rw [roundUnits, if_neg h, Nat.mul_comm (rounded _ _)]
  exact ⟨Nat.mul_le_mul_left _ hlo, Nat.mul_le_mul_left _ hhi⟩

theorem roundUnits_mono {n m : Nat} (h : n ≤ m) : roundUnits n ≤ roundUnits m := by
  by_cases hn : n < 2 ^ 52
  · rw [roundUnits, if_pos hn]
    by_cases hm : m < 2 ^ 52
    · rwa [roundUnits, if_pos hm]
    · have hpos := Nat.two_pow_pos (m.log2 - 52)
      have hle := Nat.mul_le_mul_right (2 ^ 52) hpos
      have hm := (le_roundUnits hm).1
      omega
  · have hm : ¬ m < 2 ^ 52 := by omega
    have hlog : n.log2 ≤ m.log2 := by
      have hpow : 2 ^ n.log2 ≤ m := (Nat.log2_self_le (by omega)).trans h
      exact (Nat.le_log2 (by omega)).mpr hpow
    rcases (Nat.sub_le_sub_right hlog 52).lt_or_eq with hlt | heq
    · calc roundUnits n ≤ 2 ^ (n.log2 - 52) * 2 ^ 53 := (le_roundUnits hn).2
        _ = 2 ^ (n.log2 - 52 + 1) * 2 ^ 52 := by
          rw [pow_succ 2 (n.log2 - 52), Nat.mul_assoc]
          rfl
        _ ≤ 2 ^ (m.log2 - 52) * 2 ^ 52 := Nat.mul_le_mul_right _ (Nat.pow_le_pow_right (by decide) hlt)
        _ ≤ roundUnits m := (le_roundUnits hm).1
    · rw [roundUnits, if_neg hn, roundUnits, if_neg hm, heq]
      exact Nat.mul_le_mul_right _ (rounded_mono _ h)

theorem roundSigned_mono {x y : Int} (h : x ≤ y) : roundSigned x ≤ roundSigned y := by
  unfold roundSigned
  split
  · split
    · have := roundUnits_mono (n := y.natAbs) (m := x.natAbs) (by omega)
      omega
    · omega
  · have := roundUnits_mono (n := x.natAbs) (m := y.natAbs) (by omega)
    rw [if_neg (by omega)]
    omega

theorem negative_scaled {negative : Bool} {m k : Nat} {f : F64} (h : scaled negative m k = some f) : f.negative = negative := by
  simp only [scaled] at h
  split at h <;> split at h
  · rw [← Option.some.inj h]
  · cases h
  · rw [← Option.some.inj h]
  · cases h

theorem units_nearest {negative : Bool} {n : Nat} {f : F64} (h : nearest negative n = some f) :
    f.negative = negative ∧ f.units.natAbs = roundUnits n := by
  unfold nearest at h
  unfold roundUnits
  split at h
  · next hn =>
      rw [← Option.some.inj h, if_pos hn, natAbs_units]
      exact ⟨rfl, Nat.mul_one n⟩
  · next hn =>
      obtain ⟨hlo, hhi⟩ := top_bits hn
      obtain ⟨hlo, hhi⟩ := rounded_bits hlo hhi
      rw [if_neg hn]
      exact ⟨negative_scaled h, units_scaled hlo hhi h⟩

theorem units_eq (f : F64) : f.units = if f.negative then -(f.units.natAbs : Int) else f.units.natAbs := by
  rw [natAbs_units]
  unfold units
  split
  · rw [neg_one_mul]
  · rw [one_mul]

/-- What is below `2 ^ 66` has a nearest double. -/
theorem nearest_finite (negative : Bool) {n : Nat} (h : n < 2 ^ 1140) : ∃ f, nearest negative n = some f := by
  unfold nearest
  split
  · exact ⟨_, rfl⟩
  · next hn =>
      have hlog : n.log2 < 1140 := (Nat.log2_lt (by omega)).mpr h
      unfold scaled
      rw [dif_pos (by split <;> omega)]
      exact ⟨_, rfl⟩

theorem units_ofInt {i : Int} (h : i.natAbs < 2 ^ 64) : (ofInt i).units = roundSigned (i * 2 ^ 1074) := by
  have hlt : i.natAbs * 2 ^ 1074 < 2 ^ 1140 := by
    calc i.natAbs * 2 ^ 1074 < 2 ^ 64 * 2 ^ 1074 := Nat.mul_lt_mul_of_pos_right h (Nat.two_pow_pos _)
      _ ≤ 2 ^ 1140 := by
        rw [← pow_add]
        exact Nat.pow_le_pow_right (by decide) (by decide)
  obtain ⟨f, hf⟩ := nearest_finite (i < 0) hlt
  obtain ⟨hneg, habs⟩ := units_nearest hf
  have hsign : i * 2 ^ 1074 < 0 ↔ i < 0 := mul_neg_iff.trans (by simp)
  have hn : (i * 2 ^ 1074).natAbs = i.natAbs * 2 ^ 1074 := by
    rw [Int.natAbs_mul, Int.natAbs_pow]
    rfl
  rw [ofInt, hf, Option.getD_some, units_eq, hneg, habs, roundSigned, hn]
  simp only [hsign, decide_eq_true_eq]

theorem roundSigned_units (f : F64) : roundSigned f.units = f.units := by
  have habs : f.units.natAbs = roundUnits f.units.natAbs := (units_nearest (nearest_units f.negative f)).2
  unfold roundSigned
  split <;> omega

theorem value_units (f : F64) : f.value = f.units / 2 ^ 1074 := by
  rw [value_eq, units, shift]
  by_cases hzero : f.mantissa = 0
  · rw [hzero]
    simp
  · simp only [hzero, ne_eq, not_false_eq_true, decide_true, Bool.and_true]
    push_cast
    split <;> ring

end F64

namespace Number

/-- The value in units of `2 ^ -1074`. -/
def units : Number → Int
  | posInt n => n.toNat * 2 ^ 1074
  | negInt i => i.toInt * 2 ^ 1074
  | float f => f.units

theorem value_units (n : Number) : (NumKey.json n).value = n.units / 2 ^ 1074 := by
  have hpow : (2 ^ 1074 : ℚ) ≠ 0 := by positivity
  cases n with
  | posInt n =>
      rw [units, Int.cast_mul, Int.cast_pow, Int.cast_ofNat, mul_div_assoc, div_self hpow, mul_one]
      rfl
  | negInt i =>
      rw [units, Int.cast_mul, Int.cast_pow, Int.cast_ofNat, mul_div_assoc, div_self hpow, mul_one]
      rfl
  | float f => exact f.value_units

theorem units_asF64 (n : Number) : n.asF64.units = F64.roundSigned n.units := by
  cases n with
  | posInt n =>
      have := n.toNat_lt
      exact F64.units_ofInt (by omega)
  | negInt i =>
      have h1 := i.le_toInt
      have h2 := i.toInt_lt
      exact F64.units_ofInt (by omega)
  | float f => exact (F64.roundSigned_units f).symm

/-- Reading numbers as floats keeps their order, but not what is below what. -/
theorem asF64_mono {a b : Number} (h : (NumKey.json a).value ≤ (NumKey.json b).value) : a.asF64.value ≤ b.asF64.value := by
  have hpow : (0 : ℚ) < 2 ^ 1074 := by positivity
  rw [value_units, value_units, div_le_div_iff_of_pos_right hpow, Int.cast_le] at h
  rw [F64.value_units, F64.value_units, div_le_div_iff_of_pos_right hpow, Int.cast_le, units_asF64, units_asF64]
  exact F64.roundSigned_mono h

end Number

end KivaDb
