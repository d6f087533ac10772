import Mathlib.Algebra.Ring.Int.Defs
import Mathlib.Algebra.GroupWithZero.Nat

namespace KivaDb.Lib.Saturating

/-- The number fits in 64 bits. -/
def Fits (n : Int) : Prop := -2 ^ 63 ≤ n ∧ n < 2 ^ 63

/-- The number, or the bound it is beyond. -/
def clamp (n : Int) : Int := if n < -2 ^ 63 then -2 ^ 63 else if 2 ^ 63 ≤ n then 2 ^ 63 - 1 else n

def saturatingAdd (a b : Int64) : Int64 := Int64.ofInt (clamp (a.toInt + b.toInt))

def saturatingMul (a b : Int64) : Int64 := Int64.ofInt (clamp (a.toInt * b.toInt))

variable {a b : Int64} {n m : Int}

theorem fits_toInt (a : Int64) : Fits a.toInt := ⟨a.le_toInt, a.toInt_lt⟩

theorem fits_clamp (n : Int) : Fits (clamp n) := by
  unfold Fits clamp
  split
  · omega
  · split <;> omega

theorem clamp_of_fits (h : Fits n) : clamp n = n := by
  unfold Fits at h
  unfold clamp
  rw [if_neg (by omega), if_neg (by omega)]

theorem clamp_mono (h : n ≤ m) : clamp n ≤ clamp m := by
  unfold clamp
  split <;> split <;> omega

theorem bmod_of_fits (h : Fits n) : n.bmod (2 ^ 64) = n := by
  unfold Fits at h
  exact Int.bmod_eq_of_le (by omega) (by omega)

theorem toInt_ofInt_of_fits (h : Fits n) : (Int64.ofInt n).toInt = n := Int64.toInt_ofInt_of_le h.1 h.2

theorem toInt_add_of_fits (h : Fits (a.toInt + b.toInt)) : (a + b).toInt = a.toInt + b.toInt := by
  rw [Int64.toInt_add, bmod_of_fits h]

theorem toInt_sub_of_fits (h : Fits (a.toInt - b.toInt)) : (a - b).toInt = a.toInt - b.toInt := by
  rw [Int64.toInt_sub, bmod_of_fits h]

/-- A sum beyond the upper bound comes out negative. -/
theorem toInt_add_of_ge (h : 2 ^ 63 ≤ a.toInt + b.toInt) : (a + b).toInt = a.toInt + b.toInt - 2 ^ 64 := by
  have ha := a.toInt_lt
  have hb := b.toInt_lt
  rw [Int64.toInt_add, Int.bmod_def]
  split <;> omega

theorem toInt_saturatingAdd (a b : Int64) : (saturatingAdd a b).toInt = clamp (a.toInt + b.toInt) :=
  toInt_ofInt_of_fits (fits_clamp _)

theorem toInt_saturatingMul (a b : Int64) : (saturatingMul a b).toInt = clamp (a.toInt * b.toInt) :=
  toInt_ofInt_of_fits (fits_clamp _)

theorem clamp_eq_min (h : -2 ^ 63 ≤ n) : clamp n = min n (2 ^ 63 - 1) := by
  unfold clamp
  rw [if_neg (by omega)]
  split <;> omega

theorem toInt_max (a b : Int64) : (max a b).toInt = max a.toInt b.toInt := by
  show (if a ≤ b then b else a).toInt = _
  split
  · next h =>
      have hle := Int64.le_iff_toInt_le.mp h
      omega
  · next h =>
      have hlt : b.toInt < a.toInt := Int.not_le.mp fun hle => h (Int64.le_iff_toInt_le.mpr hle)
      omega

theorem add_exact_iff : (a + b).toInt = a.toInt + b.toInt ↔ Fits (a.toInt + b.toInt) :=
  ⟨fun h => h ▸ fits_toInt (a + b), toInt_add_of_fits⟩

theorem sub_exact_iff : (a - b).toInt = a.toInt - b.toInt ↔ Fits (a.toInt - b.toInt) :=
  ⟨fun h => h ▸ fits_toInt (a - b), toInt_sub_of_fits⟩

end KivaDb.Lib.Saturating
