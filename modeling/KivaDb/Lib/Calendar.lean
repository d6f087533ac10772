import Mathlib.Data.Int.ModEq
import Mathlib.Tactic.Linarith

namespace KivaDb.Lib.Calendar

def isLeap (y : Int) : Bool := y % 4 = 0 ∧ (y % 100 ≠ 0 ∨ y % 400 = 0)

def daysInMonth (y : Int) (m : Nat) : Nat :=
  if m = 2 then if isLeap y then 29 else 28 else if m = 4 ∨ m = 6 ∨ m = 9 ∨ m = 11 then 30 else 31

/-- A day of the proleptic Gregorian calendar. -/
structure Date where
  year : Int
  month : Nat
  day : Nat
  month_pos : 1 ≤ month
  month_le : month ≤ 12
  day_pos : 1 ≤ day
  day_le : day ≤ daysInMonth year month
  deriving DecidableEq

namespace Date

/-- A date that is written down. -/
abbrev of (year : Int) (month day : Nat) (h : 1 ≤ month ∧ month ≤ 12 ∧ 1 ≤ day ∧ day ≤ daysInMonth year month) : Date :=
  ⟨year, month, day, h.1, h.2.1, h.2.2.1, h.2.2.2⟩

def ofYmd? (y : Int) (m d : Nat) : Option Date :=
  if h : 1 ≤ m ∧ m ≤ 12 ∧ 1 ≤ d ∧ d ≤ daysInMonth y m then some ⟨y, m, d, h.1, h.2.1, h.2.2.1, h.2.2.2⟩ else none

end Date

theorem daysInMonth_ge (y : Int) (m : Nat) : 28 ≤ daysInMonth y m := by
  unfold daysInMonth
  split
  · split <;> omega
  · split <;> omega

theorem daysInMonth_le (y : Int) (m : Nat) : daysInMonth y m ≤ 31 := by
  unfold daysInMonth
  split
  · split <;> omega
  · split <;> omega

theorem daysInMonth_december (y : Int) : daysInMonth y 12 = 31 := by
  simp [daysInMonth]

namespace Date

/-- The day after. -/
def next (d : Date) : Date :=
  if h : d.day < daysInMonth d.year d.month then
    { d with day := d.day + 1, day_pos := by omega, day_le := h }
  else if h : d.month < 12 then
    { year := d.year, month := d.month + 1, day := 1, month_pos := by omega, month_le := h, day_pos := le_rfl
      day_le := by have := daysInMonth_ge d.year (d.month + 1); omega }
  else
    { year := d.year + 1, month := 1, day := 1, month_pos := le_rfl, month_le := by omega, day_pos := le_rfl
      day_le := by have := daysInMonth_ge (d.year + 1) 1; omega }

/-- The day before. -/
def prev (d : Date) : Date :=
  if h : 1 < d.day then
    { d with day := d.day - 1, day_pos := by omega, day_le := by have := d.day_le; omega }
  else if h : 1 < d.month then
    { year := d.year, month := d.month - 1, day := daysInMonth d.year (d.month - 1), month_pos := by omega
      month_le := by have := d.month_le; omega
      day_pos := by have := daysInMonth_ge d.year (d.month - 1); omega, day_le := le_rfl }
  else
    { year := d.year - 1, month := 12, day := 31, month_pos := by omega, month_le := le_rfl, day_pos := by omega
      day_le := by rw [daysInMonth_december] }

/-- `n` days later, or earlier when `n` is negative. -/
def addDays (d : Date) : Int → Date
  | .ofNat n => next^[n] d
  | .negSucc n => prev^[n + 1] d

end Date

end KivaDb.Lib.Calendar
