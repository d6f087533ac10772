import Mathlib.Data.UInt

namespace KivaDb.Lib.Flags

/-- Some bit of the mask `m` is set in `flags`. -/
def hasFlag (flags m : UInt8) : Bool := flags &&& m != 0

theorem hasFlag_eq_false {f m : UInt8} : hasFlag f m = false ↔ f &&& m = 0 := by
  simp [hasFlag]

theorem hasFlag_zero (m : UInt8) : hasFlag 0 m = false := by
  simp [hasFlag]

theorem or_and (f g m : UInt8) : (f ||| g) &&& m = (f &&& m) ||| (g &&& m) := by
  apply UInt8.toNat_inj.mp
  simp only [UInt8.toNat_and, UInt8.toNat_or, Nat.and_or_distrib_right]

theorem or_and_of_hasFlag {g m : UInt8} (hg : hasFlag g m = false) (f : UInt8) : (f ||| g) &&& m = f &&& m := by
  rw [or_and, hasFlag_eq_false.mp hg, UInt8.or_zero]

/-- A mask finds in a combination of flags what it finds in one of them. -/
@[simp] theorem hasFlag_or (f g m : UInt8) : hasFlag (f ||| g) m = (hasFlag f m || hasFlag g m) := by
  rw [Bool.eq_iff_iff]
  simp only [hasFlag, or_and, bne_iff_ne, Bool.or_eq_true, ne_eq, UInt8.or_eq_zero_iff]
  tauto

theorem or_ne_self {f m : UInt8} (hm : m ≠ 0) (h : hasFlag f m = false) : f ≠ f ||| m := by
  intro he
  have hs : hasFlag (f ||| m) m = true := by
    rw [hasFlag_or, h]
    simpa [hasFlag] using hm
  rw [← he, h] at hs
  exact Bool.false_ne_true hs

end KivaDb.Lib.Flags
