import KivaDb.Num

namespace KivaDb

namespace F64

/-- The value in units of `2 ^ -1074`, of which every finite double is a whole number. -/
def units (f : F64) : Int := (if f.negative then -1 else 1) * (f.mantissa * 2 ^ (f.exponent.val - 1) : Nat)

/-- `n / 2 ^ k` to the nearest integer, the even one of two. -/
def rounded (n k : Nat) : Nat :=
  if 2 * (n % 2 ^ k) > 2 ^ k ∨ (2 * (n % 2 ^ k) = 2 ^ k ∧ n / 2 ^ k % 2 = 1) then n / 2 ^ k + 1 else n / 2 ^ k

/-- `m * 2 ^ k` units, for an `m` of 53 bits or the power of two after them; nothing where
it would be infinite. -/
def scaled (negative : Bool) (m k : Nat) : Option F64 :=
  let exponent := if m = 2 ^ 53 then k + 2 else k + 1
  if he : exponent < 2047 then some ⟨negative, ⟨exponent, he⟩, ⟨m % 2 ^ 52, fraction_lt m⟩⟩ else none

/-- The nearest double to a number of units. -/
def nearest (negative : Bool) (n : Nat) : Option F64 :=
  if h : n < 2 ^ 52 then some ⟨negative, 0, ⟨n, h⟩⟩ else scaled negative (rounded n (n.log2 - 52)) (n.log2 - 52)

/-- An integer of 128 bits as a double, which is always finite. -/
def ofInt (i : Int) : F64 := (nearest (i < 0) (i.natAbs * 2 ^ 1074)).getD ⟨false, 0, 0⟩

example : ofInt (2 ^ 64 - 1) = ⟨false, 1087, 0⟩ := by decide +kernel

/-- The sum, rounded to the nearest. A sum of zero is negative only for two negatives. -/
def add (f g : F64) : Option F64 :=
  let sum := f.units + g.units
  nearest (if sum = 0 then f.negative && g.negative else sum < 0) sum.natAbs

theorem add_comm (f g : F64) : f.add g = g.add f := by
  simp only [add, Int.add_comm f.units, Bool.and_comm f.negative]

/-- The product, rounded to the nearest: units times units are of `2 ^ -2148`. -/
def mul (f g : F64) : Option F64 :=
  let n := f.units.natAbs * g.units.natAbs
  let negative := f.negative != g.negative
  if n < 2 ^ 1126 then nearest negative (rounded n 1074)
  else scaled negative (rounded n (n.log2 - 52)) (n.log2 - 52 - 1074)

example : (ofInt 3).mul (ofInt (-5)) = some (ofInt (-15)) := by decide +kernel

/-- Whether it has no fraction. -/
def isWhole (f : F64) : Bool := f.units % 2 ^ 1074 = 0

theorem natAbs_units (f : F64) : f.units.natAbs = f.mantissa * 2 ^ (f.exponent.val - 1) := by
  unfold units
  split <;> simp [Int.natAbs_mul]

/-- Fifty-three bits of a number, and how many follow. -/
theorem top_bits {n : Nat} (h : ¬ n < 2 ^ 52) :
    2 ^ 52 ≤ n / 2 ^ (n.log2 - 52) ∧ n / 2 ^ (n.log2 - 52) < 2 ^ 53 := by
  have hne : n ≠ 0 := by omega
  have hlog : 52 ≤ n.log2 := (Nat.le_log2 hne).mpr (by omega)
  have hlo : 2 ^ n.log2 ≤ n := Nat.log2_self_le hne
  have hhi : n < 2 ^ (n.log2 + 1) := Nat.lt_log2_self
  constructor
  · rw [Nat.le_div_iff_mul_le (Nat.two_pow_pos _), ← pow_add, Nat.add_sub_cancel' hlog]
    exact hlo
  · rw [Nat.div_lt_iff_lt_mul (Nat.two_pow_pos _), ← pow_add]
    have : 53 + (n.log2 - 52) = n.log2 + 1 := by omega
    rwa [this]

theorem units_scaled {negative : Bool} {m k : Nat} {f : F64} (hlo : 2 ^ 52 ≤ m) (hhi : m ≤ 2 ^ 53)
    (h : scaled negative m k = some f) : f.units.natAbs = m * 2 ^ k := by
  rw [natAbs_units]
  simp only [scaled] at h
  split at h
  · next hm =>
      split at h
      · obtain rfl := Option.some.inj h
        have hmod : m % 2 ^ 52 = 0 := by omega
        simp only [mantissa, hmod]
        rw [if_neg (by omega), hm]
        show (2 ^ 52 + 0) * 2 ^ (k + 1) = 2 ^ 53 * 2 ^ k
        ring
      · exact nomatch h
  · next hm =>
      split at h
      · obtain rfl := Option.some.inj h
        have hmod : 2 ^ 52 + m % 2 ^ 52 = m := by omega
        simp only [mantissa]
        rw [if_neg (by omega), Nat.add_sub_cancel, hmod]
      · exact nomatch h

theorem rounded_exact {n k : Nat} (h : 2 ^ k ∣ n) : rounded n k * 2 ^ k = n := by
  have hzero : n % 2 ^ k = 0 := Nat.mod_eq_zero_of_dvd h
  have hpos := Nat.two_pow_pos k
  rw [rounded, hzero, if_neg (by omega)]
  exact Nat.div_mul_cancel h

theorem rounded_bits {n k : Nat} (hlo : 2 ^ 52 ≤ n / 2 ^ k) (hhi : n / 2 ^ k < 2 ^ 53) :
    2 ^ 52 ≤ rounded n k ∧ rounded n k ≤ 2 ^ 53 := by
  unfold rounded
  split <;> omega

/-- Rounding takes nothing from the zeros a number ends with. -/
theorem dvd_units_nearest {negative : Bool} {n d : Nat} {f : F64} (hd : 2 ^ d ∣ n) (h : nearest negative n = some f) :
    2 ^ d ∣ f.units.natAbs := by
  unfold nearest at h
  split at h
  · next hn =>
      obtain rfl := Option.some.inj h
      simpa [natAbs_units, mantissa] using hd
  · next hn =>
      obtain ⟨hlo, hhi⟩ := top_bits hn
      obtain ⟨hlo, hhi⟩ := rounded_bits hlo hhi
      rw [units_scaled hlo hhi h]
      by_cases hk : d ≤ n.log2 - 52
      · exact Dvd.dvd.mul_left (Nat.pow_dvd_pow 2 hk) _
      · rw [rounded_exact ((Nat.pow_dvd_pow 2 (by omega)).trans hd)]
        exact hd

theorem isWhole_ofInt (i : Int) : (ofInt i).isWhole = true := by
  unfold ofInt isWhole
  generalize 1074 = d
  rcases hf : nearest (i < 0) (i.natAbs * 2 ^ d) with _ | f
  · simp [units, mantissa]
  · have hdvd := dvd_units_nearest (Dvd.intro_left _ rfl) hf
    rw [Option.getD_some, decide_eq_true_eq]
    refine Int.emod_eq_zero_of_dvd (Int.natAbs_dvd_natAbs.mp ?_)
    rwa [Int.natAbs_pow]

end F64

end KivaDb
