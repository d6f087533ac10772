import KivaDb.Num
import Mathlib.Data.List.TakeWhile
import Mathlib.Data.Nat.Digits.Defs
import Mathlib.Tactic.Ring

namespace KivaDb.Num

open Lib.Compare

/-- A non-negative integer of any size, little-endian 32-bit limbs. -/
abbrev Big := List UInt32

namespace Big

def fromU128 (n : Nat) : Big := if n = 0 then [] else .ofNat n :: fromU128 (n / 2 ^ 32)

def trim (b : Big) : Big := (b.reverse.dropWhile (· = 0)).reverse

/-- The limbs times `m`, low to high, and the carry that is left. -/
def mulLimbs (m : UInt32) : Big → UInt64 → Big × UInt64
  | [], carry => ([], carry)
  | limb :: rest, carry =>
      let p := limb.toUInt64 * m.toUInt64 + carry
      let (rest, carry) := mulLimbs m rest (p >>> 32)
      (p.toUInt32 :: rest, carry)

def mulSmall (b : Big) (m : UInt32) : Big :=
  let (limbs, carry) := mulLimbs m b 0
  trim (if 0 < carry then limbs ++ [carry.toUInt32] else limbs)

def mulPow10 (b : Big) (n : Nat) : Big := (mulSmall · 10)^[n] b

def shlLimbs (rest : UInt32) : Big → UInt32 → Big × UInt32
  | [], carry => ([], carry)
  | limb :: limbs, carry =>
      let (limbs, last) := shlLimbs rest limbs (if rest = 0 then 0 else limb >>> (32 - rest))
      ((limb <<< rest ||| carry) :: limbs, last)

def shl (b : Big) (bits : Nat) : Big :=
  let (limbs, carry) := shlLimbs (.ofNat (bits % 32)) b 0
  let v := List.replicate (bits / 32) 0 ++ limbs
  trim (if 0 < carry then v ++ [carry] else v)

/-- Limbs of the same number, the highest first. -/
def lexCmp : List UInt32 → List UInt32 → Ordering
  | [], [] => .eq
  | [], _ :: _ => .lt
  | _ :: _, [] => .gt
  | x :: xs, y :: ys => (compare x.toNat y.toNat).then (lexCmp xs ys)

def cmp (a b : Big) : Ordering :=
  (compare (trim a).length (trim b).length).then (lexCmp (trim a).reverse (trim b).reverse)

def isZero (b : Big) : Bool := b.all (· = 0)

def toNat (b : Big) : Nat := Nat.ofDigits (2 ^ 32) (b.map UInt32.toNat)

@[simp] theorem toNat_nil : toNat [] = 0 := rfl

@[simp] theorem toNat_cons (x : UInt32) (b : Big) : toNat (x :: b) = x.toNat + 2 ^ 32 * toNat b := by
  simp [toNat, Nat.ofDigits_cons]

theorem toNat_append (a b : Big) : toNat (a ++ b) = toNat a + 2 ^ (32 * a.length) * toNat b := by
  rw [toNat, List.map_append, Nat.ofDigits_append, List.length_map, ← pow_mul]
  rfl

theorem toNat_lt (b : Big) : toNat b < 2 ^ (32 * b.length) := by
  induction b with
  | nil => simp
  | cons x b ih =>
      have hx := x.toNat_lt
      have hpow : 2 ^ (32 * (x :: b).length) = 2 ^ 32 * 2 ^ (32 * b.length) := by
        rw [← pow_add, List.length_cons]
        congr 1
        omega
      rw [toNat_cons, hpow]
      omega

theorem toNat_replicate_zero (n : Nat) : toNat (List.replicate n 0) = 0 := by
  induction n with
  | zero => rfl
  | succ n ih => simp [List.replicate_succ, ih]

theorem toNat_fromU128 (n : Nat) : toNat (fromU128 n) = n := by
  induction n using fromU128.induct with
  | case1 => rw [fromU128, if_pos rfl, toNat_nil]
  | case2 n hn ih =>
      rw [fromU128, if_neg hn, toNat_cons, ih, UInt32.toNat_ofNat']
      omega

/-- The limbs of a number without leading zeros, and those zeros. -/
theorem trim_append (b : Big) : ∃ n, b = trim b ++ List.replicate n 0 := by
  have hsplit := List.takeWhile_append_dropWhile (p := fun x : UInt32 => decide (x = 0)) (l := b.reverse)
  refine ⟨(b.reverse.takeWhile (· = 0)).length, ?_⟩
  have hzeros : b.reverse.takeWhile (· = 0) = List.replicate (b.reverse.takeWhile (· = 0)).length 0 := by
    refine List.eq_replicate_of_mem fun x hx => ?_
    simpa using List.mem_takeWhile_imp hx
  have hrev := congrArg List.reverse hsplit
  rw [List.reverse_append, List.reverse_reverse] at hrev
  rw [← List.reverse_replicate, ← hzeros]
  exact hrev.symm

@[simp] theorem toNat_trim (b : Big) : toNat (trim b) = toNat b := by
  obtain ⟨n, hn⟩ := trim_append b
  conv_rhs => rw [hn]
  rw [toNat_append, toNat_replicate_zero, Nat.mul_zero, Nat.add_zero]

theorem trim_last (b : Big) : trim b = [] ∨ ∃ init x, trim b = init ++ [x] ∧ x ≠ 0 := by
  unfold trim
  rcases hdrop : b.reverse.dropWhile (· = 0) with _ | ⟨x, rest⟩
  · exact .inl (by rw [hdrop]; rfl)
  · refine .inr ⟨rest.reverse, x, by rw [hdrop, List.reverse_cons], ?_⟩
    have hhead := List.head?_dropWhile_not (fun x : UInt32 => decide (x = 0)) b.reverse
    rw [hdrop] at hhead
    simpa using hhead

/-- The length of a number without leading zeros orders it. -/
theorem length_trim (b : Big) : trim b = [] ∨ 2 ^ (32 * ((trim b).length - 1)) ≤ toNat b := by
  obtain hnil | ⟨init, x, htrim, hx⟩ := trim_last b
  · exact .inl hnil
  · right
    have hpos : 0 < x.toNat := Nat.pos_of_ne_zero fun h => hx (UInt32.toNat_inj.mp h)
    rw [← toNat_trim b, htrim, toNat_append, List.length_append, List.length_singleton, Nat.add_sub_cancel, toNat_cons,
      toNat_nil, Nat.mul_zero, Nat.add_zero]
    have hmul := Nat.mul_le_mul_left (2 ^ (32 * init.length)) hpos
    omega

theorem mulLimbs_toNat (m : UInt32) (b : Big) (carry : UInt64) (hcarry : carry.toNat < 2 ^ 32) :
    toNat (mulLimbs m b carry).1 + 2 ^ (32 * b.length) * (mulLimbs m b carry).2.toNat =
      toNat b * m.toNat + carry.toNat ∧ (mulLimbs m b carry).1.length = b.length ∧
      (mulLimbs m b carry).2.toNat < 2 ^ 32 := by
  induction b generalizing carry with
  | nil => simpa [mulLimbs] using hcarry
  | cons x b ih =>
      have hx := x.toNat_lt
      have hm := m.toNat_lt
      have hprod : x.toNat * m.toNat ≤ (2 ^ 32 - 1) * (2 ^ 32 - 1) :=
        Nat.mul_le_mul (by omega) (by omega)
      have hp : (x.toUInt64 * m.toUInt64 + carry).toNat = x.toNat * m.toNat + carry.toNat := by
        rw [UInt64.toNat_add, UInt64.toNat_mul, UInt32.toNat_toUInt64, UInt32.toNat_toUInt64]
        rw [Nat.mod_eq_of_lt (by omega : x.toNat * m.toNat < 2 ^ 64), Nat.mod_eq_of_lt (by omega)]
      have hnext : ((x.toUInt64 * m.toUInt64 + carry) >>> 32).toNat = (x.toNat * m.toNat + carry.toNat) / 2 ^ 32 := by
        rw [UInt64.toNat_shiftRight, hp, Nat.shiftRight_eq_div_pow]
        rfl
      obtain ⟨hvalue, hlength, hlast⟩ := ih _ (by rw [hnext]; omega)
      simp only [mulLimbs]
      refine ⟨?_, by rw [List.length_cons, hlength, List.length_cons], hlast⟩
      have hpow : 2 ^ (32 * (x :: b).length) = 2 ^ 32 * 2 ^ (32 * b.length) := by
        rw [← pow_add, List.length_cons]
        congr 1
        omega
      rw [hnext] at hvalue
      rw [toNat_cons, toNat_cons, UInt64.toNat_toUInt32, hp, hpow, Nat.add_mul, mul_assoc (2 ^ 32), mul_assoc (2 ^ 32),
        Nat.add_assoc, ← Nat.mul_add, hvalue]
      omega

theorem toNat_mulSmall (b : Big) (m : UInt32) : toNat (mulSmall b m) = toNat b * m.toNat := by
  obtain ⟨hvalue, hlength, hlast⟩ := mulLimbs_toNat m b 0 (by simp)
  simp only [mulSmall, toNat_trim]
  split
  · rw [toNat_append, hlength, toNat_cons, toNat_nil, UInt64.toNat_toUInt32, Nat.mod_eq_of_lt hlast]
    simpa using hvalue
  · next hzero =>
      have hcarry : (mulLimbs m b 0).2 = 0 := by
        apply UInt64.toNat_inj.mp
        have hlt := mt UInt64.lt_iff_toNat_lt.mpr hzero
        simpa using hlt
      rw [hcarry] at hvalue
      simpa using hvalue

theorem toNat_mulPow10 (b : Big) (n : Nat) : toNat (mulPow10 b n) = toNat b * 10 ^ n := by
  induction n with
  | zero => simp [mulPow10]
  | succ n ih =>
      rw [mulPow10] at ih ⊢
      rw [Function.iterate_succ_apply', toNat_mulSmall, ih, pow_succ, mul_assoc]
      rfl

theorem shlLimbs_toNat {rest : UInt32} (hrest : rest.toNat < 32) (b : Big) (carry : UInt32)
    (hcarry : carry.toNat < 2 ^ rest.toNat) :
    toNat (shlLimbs rest b carry).1 + 2 ^ (32 * b.length) * (shlLimbs rest b carry).2.toNat =
      toNat b * 2 ^ rest.toNat + carry.toNat ∧ (shlLimbs rest b carry).1.length = b.length := by
  induction b generalizing carry with
  | nil => simp [shlLimbs]
  | cons x b ih =>
      have hx := x.toNat_lt
      have hsplit : 2 ^ rest.toNat * 2 ^ (32 - rest.toNat) = 2 ^ 32 := by
        rw [← pow_add]
        congr 1
        omega
      have hlow : (x <<< rest ||| carry).toNat = x.toNat * 2 ^ rest.toNat % 2 ^ 32 + carry.toNat := by
        rw [UInt32.toNat_or, UInt32.toNat_shiftLeft, Nat.mod_eq_of_lt hrest, Nat.shiftLeft_eq, ← hsplit,
          mul_comm x.toNat, Nat.mul_mod_mul_left, ← Nat.two_pow_add_eq_or_of_lt hcarry]
      have hnext : (if rest = 0 then 0 else x >>> (32 - rest)).toNat = x.toNat * 2 ^ rest.toNat / 2 ^ 32 := by
        split
        · next hzero =>
            subst hzero
            simp only [UInt32.toNat_zero, pow_zero, mul_one]
            omega
        · next hne =>
            have hpos : 0 < rest.toNat := Nat.pos_of_ne_zero fun h => hne (UInt32.toNat_inj.mp h)
            have hsub : (32 - rest).toNat = 32 - rest.toNat := by
              rw [UInt32.toNat_sub_of_le _ _ (UInt32.le_iff_toNat_le.mpr (by simpa using hrest.le))]
              rfl
            rw [UInt32.toNat_shiftRight, hsub, Nat.mod_eq_of_lt (by omega), Nat.shiftRight_eq_div_pow, ← hsplit,
              mul_comm x.toNat, Nat.mul_div_mul_left _ _ (Nat.two_pow_pos _)]
      have hcarry' : (if rest = 0 then 0 else x >>> (32 - rest)).toNat < 2 ^ rest.toNat := by
        rw [hnext, Nat.div_lt_iff_lt_mul (Nat.two_pow_pos 32), mul_comm]
        exact Nat.mul_lt_mul_of_pos_left hx (Nat.two_pow_pos _)
      obtain ⟨hvalue, hlength⟩ := ih _ hcarry'
      simp only [shlLimbs]
      refine ⟨?_, by rw [List.length_cons, hlength, List.length_cons]⟩
      have hpow : 2 ^ (32 * (x :: b).length) = 2 ^ 32 * 2 ^ (32 * b.length) := by
        rw [← pow_add, List.length_cons]
        congr 1
        omega
      rw [hnext] at hvalue
      rw [toNat_cons, toNat_cons, hlow, hpow, Nat.add_mul, mul_assoc (2 ^ 32), mul_assoc (2 ^ 32), Nat.add_assoc,
        ← Nat.mul_add, hvalue]
      omega

theorem toNat_shl (b : Big) (bits : Nat) : toNat (shl b bits) = toNat b * 2 ^ bits := by
  have hrest : (UInt32.ofNat (bits % 32)).toNat = bits % 32 := by
    rw [UInt32.toNat_ofNat']
    omega
  obtain ⟨hvalue, hlength⟩ := shlLimbs_toNat (by rw [hrest]; omega) b 0 (Nat.two_pow_pos _)
  rw [hrest, UInt32.toNat_zero, Nat.add_zero] at hvalue
  have hbits : 2 ^ bits = 2 ^ (32 * (bits / 32)) * 2 ^ (bits % 32) := by
    rw [← pow_add, Nat.div_add_mod]
  have hwords (limbs : Big) : toNat (List.replicate (bits / 32) 0 ++ limbs) = 2 ^ (32 * (bits / 32)) * toNat limbs := by
    rw [toNat_append, toNat_replicate_zero, List.length_replicate, Nat.zero_add]
  simp only [shl, toNat_trim]
  rw [hbits, mul_left_comm, ← hvalue]
  split
  · rw [List.append_assoc, hwords, toNat_append, hlength, toNat_cons, toNat_nil, Nat.mul_zero, Nat.add_zero]
  · next hzero =>
      have hcarry : (shlLimbs (UInt32.ofNat (bits % 32)) b 0).2 = 0 := by
        apply UInt32.toNat_inj.mp
        have hlt := mt UInt32.lt_iff_toNat_lt.mpr hzero
        simpa using hlt
      rw [hwords, hcarry, UInt32.toNat_zero, Nat.mul_zero, Nat.add_zero]

theorem lexCmp_eq {xs ys : List UInt32} (h : xs.length = ys.length) :
    lexCmp xs ys = compare (toNat xs.reverse) (toNat ys.reverse) := by
  induction xs generalizing ys with
  | nil =>
      obtain rfl := List.length_eq_zero_iff.mp h.symm
      rfl
  | cons x xs ih =>
      cases ys with
      | nil => simp at h
      | cons y ys =>
          have hlen : xs.length = ys.length := by simpa using h
          have hxs := toNat_lt xs.reverse
          have hys := toNat_lt ys.reverse
          rw [List.length_reverse] at hxs hys
          rw [← hlen] at hys
          simp only [lexCmp, ih hlen, List.reverse_cons, toNat_append, List.length_reverse, toNat_cons, toNat_nil,
            Nat.mul_zero, Nat.add_zero, ← hlen]
          rcases lt_trichotomy x.toNat y.toNat with hlt | heq | hgt
          · rw [compare_lt_iff_lt.mpr hlt]
            symm
            apply compare_lt_iff_lt.mpr
            have hmul := Nat.mul_le_mul_left (2 ^ (32 * xs.length)) hlt
            rw [Nat.mul_succ] at hmul
            omega
          · rw [heq, compare_eq_iff_eq.mpr rfl]
            exact compare_congr (by omega) (by omega)
          · rw [compare_gt_iff_gt.mpr hgt]
            symm
            apply compare_gt_iff_gt.mpr
            have hmul := Nat.mul_le_mul_left (2 ^ (32 * xs.length)) hgt
            rw [Nat.mul_succ] at hmul
            omega

/-- The shorter number is the smaller one. -/
theorem toNat_lt_of_length {a b : Big} (h : (trim a).length < (trim b).length) : toNat a < toNat b := by
  have ha := toNat_lt (trim a)
  rw [toNat_trim] at ha
  obtain hnil | hb := length_trim b
  · simp [hnil] at h
  · refine lt_of_lt_of_le ha (le_trans ?_ hb)
    exact Nat.pow_le_pow_right (by omega) (by omega)

theorem cmp_eq (a b : Big) : cmp a b = compare (toNat a) (toNat b) := by
  rw [cmp]
  rcases lt_trichotomy (trim a).length (trim b).length with hlt | heq | hgt
  · rw [compare_lt_iff_lt.mpr hlt, compare_lt_iff_lt.mpr (toNat_lt_of_length hlt)]
    rfl
  · rw [compare_eq_iff_eq.mpr heq, lexCmp_eq (by simpa using heq), List.reverse_reverse, List.reverse_reverse,
      toNat_trim, toNat_trim]
    rfl
  · rw [compare_gt_iff_gt.mpr hgt, compare_gt_iff_gt.mpr (toNat_lt_of_length hgt)]
    rfl

theorem isZero_iff (b : Big) : isZero b = true ↔ toNat b = 0 := by
  induction b with
  | nil => simp [isZero]
  | cons x b ih =>
      rw [isZero, List.all_cons, Bool.and_eq_true, ← isZero, ih, toNat_cons, decide_eq_true_eq, ← UInt32.toNat_inj,
        UInt32.toNat_zero]
      omega

/-- A fraction whose numerator is held in limbs. -/
structure Ratio where
  negative : Bool
  num : Big
  pow10 : Nat
  pow2 : Nat

namespace Ratio

def ofInt (i : Int) : Ratio := ⟨i < 0, fromU128 i.natAbs, 0, 0⟩

def ofDecimal (d : Decimal) : Ratio := ⟨d.mantissa < 0, fromU128 d.mantissa.natAbs, d.scale, 0⟩

def ofFloat (f : F64) : Ratio :=
  let m := f.mantissa
  let e := f.exp
  let negative := f.negative && m ≠ 0
  if 0 ≤ e then ⟨negative, (fromU128 m).shl e.toNat, 0, 0⟩ else ⟨negative, fromU128 m, 0, (-e).toNat⟩

def sign (r : Ratio) : Int := if r.num.isZero then 0 else if r.negative then -1 else 1

/-- By cross multiplication, without the signs. -/
def cmpMagnitude (r s : Ratio) : Ordering :=
  ((r.num.mulPow10 s.pow10).shl s.pow2).cmp ((s.num.mulPow10 r.pow10).shl r.pow2)

def cmp (r s : Ratio) : Ordering :=
  match compare r.sign s.sign with
  | .eq => if r.sign = 0 then .eq else if 0 < r.sign then cmpMagnitude r s else cmpMagnitude s r
  | other => other

def toRatio (r : Ratio) : Num.Ratio := ⟨r.negative, r.num.toNat, r.pow10, r.pow2⟩

theorem toRatio_ofInt (i : Int) : (ofInt i).toRatio = .ofInt i := by
  simp only [ofInt, toRatio, toNat_fromU128, Num.Ratio.ofInt]

theorem toRatio_ofDecimal (d : Decimal) : (ofDecimal d).toRatio = .ofDecimal d := by
  simp only [ofDecimal, toRatio, toNat_fromU128, Num.Ratio.ofDecimal]

theorem toRatio_ofFloat (f : F64) : (ofFloat f).toRatio = .ofFloat f := by
  simp only [ofFloat, Num.Ratio.ofFloat]
  split
  · simp only [toRatio, toNat_shl, toNat_fromU128]
  · simp only [toRatio, toNat_fromU128]

theorem sign_toRatio (r : Ratio) : r.toRatio.sign = r.sign := by
  simp only [Num.Ratio.sign, sign, isZero_iff]
  rfl

theorem cmpMagnitude_toRatio (r s : Ratio) : r.toRatio.cmpMagnitude s.toRatio = r.cmpMagnitude s := by
  have hcmp : r.cmpMagnitude s = _ := Big.cmp_eq _ _
  rw [toNat_shl, toNat_shl, toNat_mulPow10, toNat_mulPow10] at hcmp
  exact hcmp.symm

theorem cmp_toRatio (r s : Ratio) : r.toRatio.cmp s.toRatio = r.cmp s := by
  simp only [Num.Ratio.cmp, cmp, sign_toRatio]
  cases compare r.sign s.sign <;> simp only [cmpMagnitude_toRatio]

end Ratio

def ratio : Leaf → Ratio
  | .int i => .ofInt i
  | .float f => .ofFloat f
  | .decimal d => .ofDecimal d

theorem toRatio_ratio (n : Leaf) : (ratio n).toRatio = Num.ratio n := by
  cases n with
  | int i => exact Ratio.toRatio_ofInt i
  | float f => exact Ratio.toRatio_ofFloat f
  | decimal d => exact Ratio.toRatio_ofDecimal d

/-- The order of two numbers by their exact value, as it is computed in limbs. -/
def cmpNum : Leaf → Leaf → Ordering
  | .int x, .int y => compare x y
  | .float x, .float y => compare (x.value) (y.value)
  | .int i, .float f => intFloat i f
  | .float f, .int i => (intFloat i f).swap
  | a, b => (ratio a).cmp (ratio b)
where
  intFloat (i : Int) (f : F64) : Ordering :=
    let q := f.value
    if |q| < 2 ^ 63 then (compare i (truncate q)).then (compare 0 (q - truncate q))
    else (Ratio.ofInt i).cmp (Ratio.ofFloat f)

theorem cmpNum_eq (a b : Leaf) : cmpNum a b = Num.cmpNum a b := by
  have hratio (a b : Leaf) : (ratio a).cmp (ratio b) = (Num.ratio a).cmp (Num.ratio b) := by
    rw [← toRatio_ratio, ← toRatio_ratio, Ratio.cmp_toRatio]
  have hmixed (i : Int) (f : F64) : cmpNum.intFloat i f = Num.cmpNum.intFloatDoc i f := by
    simp only [cmpNum.intFloat, Num.cmpNum.intFloatDoc]
    split
    · rfl
    · exact hratio (.int i) (.float f)
  cases a with
  | int x =>
      cases b with
      | int y => rfl
      | float f => exact hmixed x f
      | decimal d => exact hratio _ _
  | float f =>
      cases b with
      | int y => exact congrArg Ordering.swap (hmixed y f)
      | float g => rfl
      | decimal d => exact hratio _ _
  | decimal d => cases b <;> exact hratio _ _

end Big

end KivaDb.Num
