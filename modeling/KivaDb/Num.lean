import KivaDb.Lib.Compare
import Mathlib.Data.Rat.Floor
import Mathlib.Data.Rat.Cast.Order
import Mathlib.Tactic.Linarith
import Mathlib.Tactic.FieldSimp
import Mathlib.Tactic.Positivity

namespace KivaDb

open Lib.Compare

/-- A finite IEEE 754 double, by its sign, exponent and fraction fields. -/
structure F64 where
  negative : Bool
  exponent : Fin 2047
  fraction : Fin (2 ^ 52)
  deriving DecidableEq

instance neZero_specials : NeZero 2047 := ⟨by decide⟩

instance neZero_fractions : NeZero (2 ^ 52) := ⟨by decide⟩

/-- A JSON number as `serde_json` holds it. -/
inductive Number
  | posInt (n : UInt64)
  | negInt (i : Int64)
  | float (f : F64)
  deriving DecidableEq

/-- `mantissa / 10 ^ scale`. -/
structure Decimal where
  mantissa : Int
  scale : Nat
  mantissa_lt : mantissa.natAbs < 2 ^ 96
  scale_le : scale ≤ 28
  deriving DecidableEq

namespace Decimal

theorem zero_scale : 0 ≤ 28 := Nat.zero_le 28

/-- A decimal that is written down. -/
abbrev of (mantissa : Int) (scale : Nat) (h : mantissa.natAbs < 2 ^ 96 ∧ scale ≤ 28) : Decimal := ⟨mantissa, scale, h.1, h.2⟩

end Decimal

namespace F64

theorem fraction_lt (n : Nat) : n % 2 ^ 52 < 2 ^ 52 := Nat.mod_lt n (by decide)

def mantissa (f : F64) : Nat := if f.exponent.val = 0 then f.fraction.val else 2 ^ 52 + f.fraction.val

def exp (f : F64) : Int := if f.exponent.val = 0 then -1074 else (f.exponent.val : Int) - 1075

end F64

namespace Num

/-- A number as an exact fraction of non-negative integers, with its sign: the
denominator is a power of 10 times a power of 2. -/
structure Ratio where
  negative : Bool
  num : Nat
  pow10 : Nat
  pow2 : Nat

namespace Ratio

def ofInt (i : Int) : Ratio := ⟨i < 0, i.natAbs, 0, 0⟩

def ofDecimal (d : Decimal) : Ratio := ⟨d.mantissa < 0, d.mantissa.natAbs, d.scale, 0⟩

/-- The exact value of a finite float: mantissa × 2^exponent. -/
def ofFloat (f : F64) : Ratio :=
  let m := f.mantissa
  let e := f.exp
  let negative := f.negative && m ≠ 0
  if 0 ≤ e then ⟨negative, m * 2 ^ e.toNat, 0, 0⟩ else ⟨negative, m, 0, (-e).toNat⟩

def sign (r : Ratio) : Int := if r.num = 0 then 0 else if r.negative then -1 else 1

/-- Without their signs, by cross multiplication. -/
def cmpMagnitude (r s : Ratio) : Ordering :=
  compare (r.num * 10 ^ s.pow10 * 2 ^ s.pow2) (s.num * 10 ^ r.pow10 * 2 ^ r.pow2)

def cmp (r s : Ratio) : Ordering :=
  match compare r.sign s.sign with
  | .eq => if r.sign = 0 then .eq else if 0 < r.sign then cmpMagnitude r s else cmpMagnitude s r
  | other => other

def value (r : Ratio) : ℚ := (if r.negative then -1 else 1) * (r.num / (10 ^ r.pow10 * 2 ^ r.pow2))

end Ratio

end Num

def F64.value (f : F64) : ℚ := (Num.Ratio.ofFloat f).value

namespace Num

/-- The whole part, towards zero. -/
def truncate (q : ℚ) : Int := q.num.tdiv q.den

/-- The two kinds of number a JSON number can be. -/
inductive Exact
  | int (i : Int)
  | float (f : F64)

def exact : Number → Exact
  | .posInt n => .int n.toNat
  | .negInt i => .int i.toInt
  | .float f => .float f

/-- An integer against a finite float, exactly. -/
def intFloat (i : Int) (f : F64) : Ordering :=
  let q := f.value
  if 2 ^ 64 ≤ q then .lt
  else if q < -(2 ^ 63) then .gt
  else (compare i (truncate q)).then (compare 0 (q - truncate q))

/-- The order of two numbers by their value. -/
def cmp (a b : Number) : Ordering :=
  match exact a, exact b with
  | .int x, .int y => compare x y
  | .int x, .float y => intFloat x y
  | .float x, .int y => (intFloat y x).swap
  | .float x, .float y => compare (x.value) (y.value)

/-- A number of a typed document. -/
inductive Leaf
  | int (i : Int)
  | float (f : F64)
  | decimal (d : Decimal)

def ratio : Leaf → Ratio
  | .int i => .ofInt i
  | .float f => .ofFloat f
  | .decimal d => .ofDecimal d

/-- The order of two numbers by their exact value, whatever their kinds. -/
def cmpNum : Leaf → Leaf → Ordering
  | .int x, .int y => compare x y
  | .float x, .float y => compare (x.value) (y.value)
  | .int i, .float f => intFloatDoc i f
  | .float f, .int i => (intFloatDoc i f).swap
  | a, b => (ratio a).cmp (ratio b)
where
  /-- Within (-2^63, 2^63), the whole part of a float is an exact integer. -/
  intFloatDoc (i : Int) (f : F64) : Ordering :=
    let q := f.value
    if |q| < 2 ^ 63 then (compare i (truncate q)).then (compare 0 (q - truncate q))
    else (Ratio.ofInt i).cmp (Ratio.ofFloat f)

theorem truncate_of_nonneg {q : ℚ} (h : 0 ≤ q) : (truncate q : ℚ) ≤ q ∧ q < truncate q + 1 := by
  have hn : 0 ≤ q.num := Rat.num_nonneg.mpr h
  have ht : truncate q = ⌊q⌋ := by
    rw [truncate, Int.tdiv_eq_ediv_of_nonneg hn, Rat.floor_def']
  rw [ht]
  exact ⟨Int.floor_le q, Int.lt_floor_add_one q⟩

theorem truncate_neg (q : ℚ) : truncate (-q) = -truncate q := by
  simp only [truncate, Rat.num_neg_eq_neg_num, Rat.neg_den, Int.neg_tdiv]

theorem truncate_of_neg {q : ℚ} (h : q < 0) : (truncate q : ℚ) - 1 < q ∧ q ≤ truncate q := by
  have hn := truncate_of_nonneg (q := -q) (by linarith)
  rw [truncate_neg] at hn
  push_cast at hn
  constructor
  · linarith [hn.2]
  · linarith [hn.1]

theorem compare_cast (i j : Int) : compare i j = compare (i : ℚ) (j : ℚ) :=
  compare_congr Int.cast_lt.symm Int.cast_lt.symm

/-- Comparing the whole parts, then the fraction with zero, is comparing. -/
theorem compare_truncate (i : Int) (q : ℚ) :
    (compare i (truncate q)).then (compare 0 (q - truncate q)) = compare (i : ℚ) q := by
  rcases lt_trichotomy i (truncate q) with h | h | h
  · rw [compare_lt_iff_lt.mpr h]
    have hi : (i : ℚ) + 1 ≤ truncate q := by exact_mod_cast h
    symm
    apply compare_lt_iff_lt.mpr
    rcases le_or_gt 0 q with hq | hq
    · linarith [(truncate_of_nonneg hq).1]
    · linarith [(truncate_of_neg hq).1]
  · rw [compare_eq_iff_eq.mpr h, h]
    rcases lt_trichotomy (truncate q : ℚ) q with hq | hq | hq
    · rw [compare_lt_iff_lt.mpr hq, compare_lt_iff_lt.mpr (by linarith : (0 : ℚ) < q - truncate q)]
      rfl
    · rw [compare_eq_iff_eq.mpr hq, compare_eq_iff_eq.mpr (by linarith : (0 : ℚ) = q - truncate q)]
      rfl
    · rw [compare_gt_iff_gt.mpr hq, compare_gt_iff_gt.mpr (by linarith : q - truncate q < (0 : ℚ))]
      rfl
  · rw [compare_gt_iff_gt.mpr h]
    have hi : (truncate q : ℚ) + 1 ≤ i := by exact_mod_cast h
    symm
    apply compare_gt_iff_gt.mpr
    rcases le_or_gt 0 q with hq | hq
    · linarith [(truncate_of_nonneg hq).2]
    · linarith [(truncate_of_neg hq).2]

theorem intFloat_eq {i : Int} (hlo : -(2 ^ 63) ≤ i) (hhi : i < 2 ^ 64) (f : F64) :
    intFloat i f = compare (i : ℚ) f.value := by
  have hlo' : (-(2 ^ 63) : ℚ) ≤ i := by exact_mod_cast hlo
  have hhi' : (i : ℚ) < 2 ^ 64 := by exact_mod_cast hhi
  simp only [intFloat]
  split
  · rename_i h
    symm
    apply compare_lt_iff_lt.mpr
    linarith
  · split
    · rename_i h
      symm
      apply compare_gt_iff_gt.mpr
      linarith
    · exact compare_truncate i f.value

namespace Ratio

theorem value_pos {r : Ratio} (h : r.sign = 1) : r.value = r.num / (10 ^ r.pow10 * 2 ^ r.pow2) ∧ 0 < r.value := by
  unfold sign at h
  split at h
  · simp at h
  · rename_i hn
    split at h
    · simp at h
    · rename_i hs
      have hv : r.value = r.num / (10 ^ r.pow10 * 2 ^ r.pow2) := by simp [value, hs]
      have hp : (0 : ℚ) < r.num := by exact_mod_cast Nat.pos_of_ne_zero hn
      exact ⟨hv, by rw [hv]; positivity⟩

theorem value_neg {r : Ratio} (h : r.sign = -1) :
    r.value = -(r.num / (10 ^ r.pow10 * 2 ^ r.pow2)) ∧ r.value < 0 := by
  unfold sign at h
  split at h
  · simp at h
  · rename_i hn
    split at h
    · rename_i hs
      have hv : r.value = -(r.num / (10 ^ r.pow10 * 2 ^ r.pow2)) := by simp [value, hs]
      have hp : (0 : ℚ) < r.num := by exact_mod_cast Nat.pos_of_ne_zero hn
      refine ⟨hv, ?_⟩
      rw [hv, neg_lt_zero]
      positivity
    · simp at h

theorem value_zero {r : Ratio} (h : r.sign = 0) : r.value = 0 := by
  have hn : r.num = 0 := by
    unfold sign at h
    split at h
    · assumption
    · split at h <;> simp at h
  simp [value, hn]

theorem sign_cases (r : Ratio) : r.sign = -1 ∨ r.sign = 0 ∨ r.sign = 1 := by
  unfold sign
  split
  · exact .inr (.inl rfl)
  · split
    · exact .inl rfl
    · exact .inr (.inr rfl)

theorem cmpMagnitude_eq (r s : Ratio) :
    cmpMagnitude r s =
      compare ((r.num : ℚ) / (10 ^ r.pow10 * 2 ^ r.pow2)) (s.num / (10 ^ s.pow10 * 2 ^ s.pow2)) := by
  have hr : (0 : ℚ) < 10 ^ r.pow10 * 2 ^ r.pow2 := by positivity
  have hs : (0 : ℚ) < 10 ^ s.pow10 * 2 ^ s.pow2 := by positivity
  apply compare_congr
  · rw [div_lt_div_iff₀ hr hs, ← mul_assoc, ← mul_assoc]
    exact_mod_cast Iff.rfl
  · rw [div_lt_div_iff₀ hs hr, ← mul_assoc, ← mul_assoc]
    exact_mod_cast Iff.rfl

/-- The order of ratios is that of their values. -/
theorem cmp_eq (r s : Ratio) : cmp r s = compare r.value s.value := by
  rcases sign_cases r with hr | hr | hr <;> rcases sign_cases s with hs | hs | hs
  · have hc : cmp r s = cmpMagnitude s r := by simp [cmp, hr, hs]
    rw [hc, cmpMagnitude_eq, (value_neg hr).1, (value_neg hs).1]
    exact compare_congr neg_lt_neg_iff.symm neg_lt_neg_iff.symm
  · have hc : cmp r s = .lt := by simp [cmp, hr, hs]; rfl
    rw [hc, value_zero hs, compare_lt_iff_lt.mpr (value_neg hr).2]
  · have hc : cmp r s = .lt := by simp [cmp, hr, hs]; rfl
    rw [hc, compare_lt_iff_lt.mpr ((value_neg hr).2.trans (value_pos hs).2)]
  · have hc : cmp r s = .gt := by simp [cmp, hr, hs]; rfl
    rw [hc, value_zero hr, compare_gt_iff_gt.mpr (value_neg hs).2]
  · have hc : cmp r s = .eq := by simp [cmp, hr, hs]
    rw [hc, value_zero hr, value_zero hs, compare_eq_iff_eq.mpr rfl]
  · have hc : cmp r s = .lt := by simp [cmp, hr, hs]; rfl
    rw [hc, value_zero hr, compare_lt_iff_lt.mpr (value_pos hs).2]
  · have hc : cmp r s = .gt := by simp [cmp, hr, hs]; rfl
    rw [hc, compare_gt_iff_gt.mpr ((value_neg hs).2.trans (value_pos hr).2)]
  · have hc : cmp r s = .gt := by simp [cmp, hr, hs]; rfl
    rw [hc, value_zero hs, compare_gt_iff_gt.mpr (value_pos hr).2]
  · have hc : cmp r s = cmpMagnitude r s := by simp [cmp, hr, hs]
    rw [hc, cmpMagnitude_eq, (value_pos hr).1, (value_pos hs).1]

theorem value_ofInt (i : Int) : (ofInt i).value = i := by
  rcases lt_or_ge i 0 with h | h
  · have hn : ((i.natAbs : Nat) : ℚ) = -i := by
      rw [Nat.cast_natAbs, abs_of_neg h, Int.cast_neg]
    simp [value, ofInt, h, hn]
  · have hn : ((i.natAbs : Nat) : ℚ) = i := by
      rw [Nat.cast_natAbs, abs_of_nonneg h]
    simp [value, ofInt, not_lt.mpr h, hn]

theorem value_ofDecimal (d : Decimal) : (ofDecimal d).value = d.mantissa / 10 ^ d.scale := by
  have hd : (ofDecimal d).value = (ofInt d.mantissa).value / 10 ^ d.scale := by
    simp only [value, ofInt, ofDecimal, pow_zero, mul_one, div_one, mul_div_assoc]
    rfl
  rw [hd, value_ofInt]

end Ratio

theorem cmpNum_eq (a b : Leaf) : cmpNum a b = compare (ratio a).value (ratio b).value := by
  have hif (i : Int) (f : F64) : cmpNum.intFloatDoc i f = compare (i : ℚ) f.value := by
    simp only [cmpNum.intFloatDoc]
    split
    · exact compare_truncate i f.value
    · rw [Ratio.cmp_eq, Ratio.value_ofInt]
      rfl
  cases a with
  | int x =>
      cases b with
      | int y => rw [cmpNum, ratio, ratio, Ratio.value_ofInt, Ratio.value_ofInt, compare_cast]
      | float f => rw [cmpNum, hif, ratio, ratio, Ratio.value_ofInt]; rfl
      | decimal d => exact Ratio.cmp_eq ..
  | float f =>
      cases b with
      | int y => rw [cmpNum, hif, swap_compare, ratio, ratio, Ratio.value_ofInt]; rfl
      | float g => rfl
      | decimal d => exact Ratio.cmp_eq ..
  | decimal d =>
      cases b with
      | int y => exact Ratio.cmp_eq ..
      | float f => exact Ratio.cmp_eq ..
      | decimal e => exact Ratio.cmp_eq ..

end Num

/-- A number as an index holds it: equal and ordered by its value, whether it
is a JSON number or a decimal of a typed document. -/
inductive NumKey
  | json (n : Number)
  | decimal (d : Decimal)
  deriving DecidableEq

namespace NumKey

open Num

def ofU64 (u : UInt64) : Decimal where
  mantissa := u.toNat
  scale := 0
  mantissa_lt := by
    have := u.toNat_lt
    simp only [Int.natAbs_natCast]
    omega
  scale_le := Nat.zero_le _

/-- The number for the exact comparisons of typed documents: a `u64` beyond
`i64` as the decimal that holds it. -/
def leaf : NumKey → Leaf
  | decimal d => .decimal d
  | json (.posInt n) => if n.toNat < 2 ^ 63 then .int n.toNat else .decimal (ofU64 n)
  | json (.negInt i) => .int i.toInt
  | json (.float f) => .float f

def cmp : NumKey → NumKey → Ordering
  | json a, json b => Num.cmp a b
  | a, b => cmpNum a.leaf b.leaf

/-- Against a JSON number, exactly. -/
def cmpJson (k : NumKey) (n : Number) : Ordering :=
  match k with
  | json m => Num.cmp m n
  | decimal d => cmp (decimal d) (json n)

def value : NumKey → ℚ
  | json (.posInt n) => n.toNat
  | json (.negInt i) => i.toInt
  | json (.float f) => f.value
  | decimal d => d.mantissa / 10 ^ d.scale

theorem value_leaf (k : NumKey) : (ratio k.leaf).value = k.value := by
  cases k with
  | decimal d => exact Ratio.value_ofDecimal d
  | json n =>
      cases n with
      | posInt n =>
          simp only [leaf, value]
          split
          · rw [ratio, Ratio.value_ofInt]
            simp
          · rw [ratio, Ratio.value_ofDecimal]
            simp [ofU64]
      | negInt i => exact Ratio.value_ofInt _
      | float f => rfl

/-- Numbers of all kinds are ordered by their value, exactly. -/
theorem cmp_eq (a b : NumKey) : cmp a b = compare a.value b.value := by
  have hnum : cmpNum a.leaf b.leaf = compare a.value b.value := by
    rw [cmpNum_eq, value_leaf, value_leaf]
  have hu (n : UInt64) (f : F64) : intFloat n.toNat f = compare ((n.toNat : Int) : ℚ) f.value := by
    have := n.toNat_lt
    exact intFloat_eq (by omega) (by omega) f
  have hi (i : Int64) (f : F64) : intFloat i.toInt f = compare (i.toInt : ℚ) f.value := by
    have h1 := i.le_toInt
    have h2 := i.toInt_lt
    exact intFloat_eq (by omega) (by omega) f
  cases a with
  | decimal d => exact hnum
  | json a =>
      cases b with
      | decimal d => exact hnum
      | json b =>
          rw [cmp, Num.cmp]
          cases a <;> cases b <;>
            simp only [exact, value, hu, hi, compare_cast, swap_compare, Int.cast_natCast]

theorem cmpJson_eq (k : NumKey) (n : Number) : cmpJson k n = cmp k (json n) := by
  cases k with
  | json m => rfl
  | decimal d => rfl

end NumKey

end KivaDb
