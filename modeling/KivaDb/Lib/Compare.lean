import Mathlib.Order.Compare
import Mathlib.Order.Lattice

namespace KivaDb.Lib.Compare

variable {α β : Type*} [LinearOrder α] [LinearOrder β]

/-- Two comparisons agree when they agree on who is below whom. -/
theorem compare_congr {a b : α} {c d : β} (hlt : a < b ↔ c < d) (hgt : b < a ↔ d < c) :
    compare a b = compare c d := by
  rcases lt_trichotomy a b with h | h | h
  · rw [compare_lt_iff_lt.mpr h, compare_lt_iff_lt.mpr (hlt.mp h)]
  · subst h
    have hcd : c = d := by
      apply le_antisymm
      · exact not_lt.mp fun h => lt_irrefl a (hgt.mpr h)
      · exact not_lt.mp fun h => lt_irrefl a (hlt.mpr h)
    rw [compare_eq_iff_eq.mpr rfl, compare_eq_iff_eq.mpr hcd]
  · rw [compare_gt_iff_gt.mpr h, compare_gt_iff_gt.mpr (hgt.mp h)]

theorem swap_compare (a b : α) : (compare a b).swap = compare b a := by
  rcases lt_trichotomy a b with h | h | h
  · rw [compare_lt_iff_lt.mpr h, compare_gt_iff_gt.mpr h]
    rfl
  · rw [compare_eq_iff_eq.mpr h, compare_eq_iff_eq.mpr h.symm]
    rfl
  · rw [compare_gt_iff_gt.mpr h, compare_lt_iff_lt.mpr h]
    rfl

end KivaDb.Lib.Compare
