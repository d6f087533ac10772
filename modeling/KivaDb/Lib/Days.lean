import KivaDb.Lib.Calendar
import Mathlib.Order.Monotone.Basic

namespace KivaDb.Lib.Calendar

/-- Days from the first of January 1970 to the first of January of `y`. -/
def daysToYear (y : Int) : Int :=
  365 * (y - 1970) + ((y - 1) / 4 - (y - 1) / 100 + (y - 1) / 400) - 477

/-- Days of the first `m` months of `y`. -/
def daysOfMonths (y : Int) : Nat → Nat
  | 0 => 0
  | m + 1 => daysOfMonths y m + daysInMonth y (m + 1)

theorem daysOfMonths_zero (y : Int) : daysOfMonths y 0 = 0 := rfl

theorem daysOfMonths_mono (y : Int) : Monotone (daysOfMonths y) :=
  monotone_nat_of_le_succ fun _ => Nat.le_add_right _ _

theorem daysOfMonths_twelve (y : Int) : daysOfMonths y 12 = if isLeap y then 366 else 365 := by
  cases h : isLeap y with
  | true => simp [daysOfMonths, daysInMonth, h]
  | false => simp [daysOfMonths, daysInMonth, h]

theorem daysToYear_succ (y : Int) : daysToYear (y + 1) = daysToYear y + daysOfMonths y 12 := by
  rw [daysOfMonths_twelve, daysToYear, daysToYear]
  cases h : isLeap y with
  | true =>
      simp only [isLeap, decide_eq_true_eq] at h
      simp only [if_true]
      omega
  | false =>
      simp only [isLeap, decide_eq_false_iff_not] at h
      simp only [Bool.false_eq_true, if_false]
      omega

theorem daysToYear_lt {y z : Int} (h : y < z) : daysToYear (y + 1) ≤ daysToYear z := by
  unfold daysToYear
  omega

namespace Date

/-- Days since the first of January 1970. -/
def days (d : Date) : Int := daysToYear d.year + daysOfMonths d.year (d.month - 1) + (d.day - 1 : Nat)

def epoch : Date := ⟨1970, 1, 1, by decide, by decide, by decide, by decide⟩

theorem days_epoch : epoch.days = 0 := by decide

theorem daysOfMonths_month (d : Date) :
    daysOfMonths d.year d.month = daysOfMonths d.year (d.month - 1) + daysInMonth d.year d.month := by
  obtain ⟨m, hm⟩ : ∃ m, d.month = m + 1 := ⟨d.month - 1, by have := d.month_pos; omega⟩
  rw [hm, Nat.add_sub_cancel, daysOfMonths]

/-- A day lies before the end of its month, which lies in its year. -/
theorem days_lt (d : Date) : d.days < daysToYear d.year + daysOfMonths d.year d.month := by
  have h := daysOfMonths_month d
  have hlo := d.day_pos
  have hhi := d.day_le
  unfold days
  omega

theorem days_lt_year (d : Date) : d.days < daysToYear (d.year + 1) := by
  have h := d.days_lt
  have hmono := daysOfMonths_mono d.year d.month_le
  rw [daysToYear_succ]
  omega

theorem year_le_days (d : Date) : daysToYear d.year ≤ d.days := by
  unfold days
  omega

theorem days_lt_of_year {d e : Date} (h : d.year < e.year) : d.days < e.days :=
  lt_of_lt_of_le d.days_lt_year (le_trans (daysToYear_lt h) e.year_le_days)

theorem days_lt_of_month {d e : Date} (hy : d.year = e.year) (h : d.month < e.month) : d.days < e.days := by
  have hd := d.days_lt
  have hmono := daysOfMonths_mono d.year (show d.month ≤ e.month - 1 by omega)
  unfold days at hd ⊢
  rw [← hy]
  omega

theorem days_injective : Function.Injective days := by
  intro d e h
  have hyear : d.year = e.year := by
    obtain hlt | heq | hlt := lt_trichotomy d.year e.year
    · exact absurd h (ne_of_lt (days_lt_of_year hlt))
    · exact heq
    · exact absurd h.symm (ne_of_lt (days_lt_of_year hlt))
  have hmonth : d.month = e.month := by
    obtain hlt | heq | hlt := lt_trichotomy d.month e.month
    · exact absurd h (ne_of_lt (days_lt_of_month hyear hlt))
    · exact heq
    · exact absurd h.symm (ne_of_lt (days_lt_of_month hyear.symm hlt))
  have hday : d.day = e.day := by
    have hd := d.day_pos
    have he := e.day_pos
    rw [days, days, hyear, hmonth] at h
    omega
  cases d
  cases e
  simp_all

theorem days_next (d : Date) : d.next.days = d.days + 1 := by
  unfold next
  split
  · have := d.day_pos
    simp only [days]
    omega
  · next hday =>
      have hlast : d.day = daysInMonth d.year d.month := by
        have := d.day_le
        omega
      have hmonth := daysOfMonths_month d
      have hpos := daysInMonth_ge d.year d.month
      split
      · simp only [days, Nat.add_sub_cancel]
        omega
      · have hm : d.month = 12 := by
          have := d.month_le
          omega
        have hyear := daysToYear_succ d.year
        rw [hm] at hmonth hlast hpos
        simp only [days, hm, Nat.sub_self, daysOfMonths_zero]
        omega

theorem days_prev (d : Date) : d.prev.days = d.days - 1 := by
  unfold prev
  split
  · simp only [days]
    omega
  · next hday =>
      have hone : d.day = 1 := by
        have := d.day_pos
        omega
      split
      · next hmonth =>
          obtain ⟨m, hm⟩ : ∃ m, d.month = m + 2 := ⟨d.month - 2, by omega⟩
          have hpos := daysInMonth_ge d.year (m + 1)
          simp only [days, hm, hone, Nat.add_one_sub_one, daysOfMonths]
          omega
      · next hmonth =>
          have hm : d.month = 1 := by
            have := d.month_pos
            omega
          have hyear := daysToYear_succ (d.year - 1)
          have hdec : daysOfMonths (d.year - 1) 12 = daysOfMonths (d.year - 1) 11 + 31 := by
            rw [daysOfMonths, daysInMonth_december]
          rw [Int.sub_add_cancel] at hyear
          simp only [days, hm, hone, Nat.sub_self, daysOfMonths_zero, Nat.reduceSub]
          omega

theorem days_addDays (d : Date) (n : Int) : (d.addDays n).days = d.days + n := by
  have hnext (n : Nat) : (next^[n] d).days = d.days + n := by
    induction n with
    | zero => simp
    | succ n ih =>
        rw [Function.iterate_succ_apply', days_next, ih]
        omega
  have hprev (n : Nat) : (prev^[n] d).days = d.days - n := by
    induction n with
    | zero => simp
    | succ n ih =>
        rw [Function.iterate_succ_apply', days_prev, ih]
        omega
  cases n with
  | ofNat n => exact hnext n
  | negSucc n =>
      rw [addDays, hprev]
      omega

theorem epoch_addDays (d : Date) : epoch.addDays d.days = d := by
  apply days_injective
  rw [days_addDays, days_epoch, Int.zero_add]

end Date

end KivaDb.Lib.Calendar
