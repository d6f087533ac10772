import KivaDb.FromJson
import KivaDb.NumClass
import KivaDb.Engine.Libraries

namespace KivaDb

def Decimal.value (d : Decimal) : ℚ := d.mantissa / 10 ^ d.scale

/-- Products of decimals, as `rust_decimal` makes them. -/
class Products where
  checkedMul : Decimal → Decimal → Option Decimal

open Arithmetic Products

/-- What `rust_decimal` says of its sums and products: exact where a decimal holds them,
and decimals dropped otherwise. -/
structure Rounds [Arithmetic] [Products] : Prop where
  add_held : ∀ x y d : Decimal, d.value = x.value + y.value → ∃ r, checkedAdd x y = some r ∧ r.value = x.value + y.value
  mul_dropped : ∀ x y r : Decimal, checkedMul x y = some r → r.value = x.value * y.value ∨ r.scale < x.scale + y.scale

theorem Decimal.stripZeros_eq (m : Int) (s : Nat) : Decimal.stripZeros s m s = Num.normalize m s := by
  induction s generalizing m with
  | zero => rfl
  | succ s ih =>
      rw [Decimal.stripZeros, Num.normalize, ← ih]
      by_cases h : m % 10 = 0
      · rw [if_pos ⟨Nat.succ_ne_zero s, h⟩, if_pos h, Nat.add_sub_cancel]
      · rw [if_neg fun hs => h hs.2, if_neg h]

theorem Decimal.value_u64 {d : Decimal} {u : UInt64} (h : d.u64BeyondI64 = some u) : d.value = u.toNat := by
  have hm : d.mantissa ≠ 0 := by
    intro hm
    simp [Decimal.u64BeyondI64, Decimal.normalize, hm] at h
  have hnorm : d.normalize = Num.normalize d.mantissa d.scale := by
    rw [Decimal.normalize, if_neg hm, Decimal.stripZeros_eq]
  have hvalue := Num.normalize_value d.mantissa d.scale
  unfold Decimal.u64BeyondI64 at h
  rw [hnorm] at h
  rw [Decimal.value, ← hvalue]
  generalize Num.normalize d.mantissa d.scale = p at h
  obtain ⟨m, s⟩ := p
  simp only at h ⊢
  split at h
  · next hrange =>
      obtain ⟨rfl, hlo, hhi⟩ := hrange
      have hu : ((UInt64.ofNat m.toNat).toNat : Int) = m := by
        rw [UInt64.toNat_ofNat_of_lt' (show m.toNat < 2 ^ 64 by omega)]
        omega
      rw [← Option.some.inj h, pow_zero, div_one, ← Int.cast_natCast, hu]
  · cases h

namespace Doc

section

variable [Chrono]

/-- The number a document is, but for floats. -/
def exactValue : Doc → Option ℚ
  | int i => some i.toInt
  | decimal d => some d.value
  | _ => none

def Operand.exactValue : Operand → Option ℚ
  | .int i => some i
  | .decimal d => some d.value
  | .float _ => none

def exactly (x y r : Decimal) : Bool := r.mantissa = 0 || r.scale = x.scale + y.scale

variable [Arithmetic] [Products]

/-- A product that lost no decimal. -/
def exactMul (x y : Decimal) : Option Decimal := (checkedMul x y).filter (exactly x y)

/-- The product of two operands, of documents `a` and `b`. -/
def product (a b : Doc) : Operand → Operand → Except String Doc
  | .int x, .int y =>
      if -(2 ^ 127) ≤ x * y ∧ x * y < 2 ^ 127 then intResult (x * y)
      else .error "the result would be beyond the 64-bit integers"
  | .float x, .float y => floatResult (x.mul y)
  | .int i, .float f => floatResult ((F64.ofInt i).mul f)
  | .float f, .int i => floatResult ((F64.ofInt i).mul f)
  | .decimal _, .float _ => .error (mixed a b)
  | .float _, .decimal _ => .error (mixed a b)
  | .decimal x, .decimal y => decimalResult (exactMul x y)
  | .decimal x, .int i => decimalResult ((intAsDecimal i).bind fun i => exactMul x i)
  | .int i, .decimal x => decimalResult ((intAsDecimal i).bind fun i => exactMul x i)

/-- `a × b`, under the rules of `add`: a product of decimals that would need more digits
than a decimal holds is refused. -/
def mul (a b : Doc) : Except String Doc := do
  let x ← operand a
  let y ← operand b
  product a b x y

/-- The two decimals that arithmetic adds or multiplies, where one of the operands is a
decimal. -/
def asDecimals : Operand → Operand → Option (Decimal × Decimal)
  | .decimal x, .decimal y => some (x, y)
  | .decimal x, .int i => (intAsDecimal i).map fun y => (x, y)
  | .int i, .decimal x => (intAsDecimal i).map fun y => (x, y)
  | _, _ => none

omit [Arithmetic] [Products] in
theorem operand_exact {d : Doc} {q : ℚ} (h : d.exactValue = some q) :
    ∃ o, operand d = .ok o ∧ o.exactValue = some q ∧ ∀ i, o = .int i → -(2 ^ 63) ≤ i ∧ i < 2 ^ 64 := by
  cases d with
  | int i =>
      refine ⟨.int i.toInt, rfl, h, ?_⟩
      rintro _ ⟨⟩
      have := i.le_toInt
      have := i.toInt_lt
      omega
  | decimal d =>
      rw [operand]
      rcases hu : d.u64BeyondI64 with _ | u
      · exact ⟨.decimal d, rfl, h, fun _ h => (by cases h)⟩
      · refine ⟨.int u.toNat, rfl, ?_, ?_⟩
        · rw [← h, exactValue, Decimal.value_u64 hu]
          simp [Operand.exactValue]
        · rintro _ ⟨⟩
          have := u.toNat_lt
          omega
  | _ => cases h

omit [Chrono] [Arithmetic] [Products] in
theorem value_intAsDecimal {i : Int} {d : Decimal} (h : intAsDecimal i = some d) : d.value = i := by
  unfold intAsDecimal at h
  split at h
  · rw [← Option.some.inj h, Decimal.value, pow_zero, div_one]
  · cases h

omit [Arithmetic] [Products] in
theorem intResult_exact {i : Int} {c : Doc} (h : intResult i = .ok c) : c.exactValue = some (i : ℚ) := by
  unfold intResult at h
  split at h
  · next hi =>
      rw [← Except.ok.inj h, exactValue, Int64.toInt_ofInt_of_le hi.1 (by omega)]
  · split at h
    · rw [← Except.ok.inj h, exactValue, Decimal.value, pow_zero, div_one]
    · cases h

omit [Arithmetic] [Products] in
theorem decimalResult_ok {r : Option Decimal} {c : Doc} : decimalResult r = .ok c ↔ ∃ d, r = some d ∧ c = decimal d := by
  rcases r with _ | d
  · exact ⟨fun h => (nomatch h), fun ⟨_, h, _⟩ => (nomatch h)⟩
  · constructor
    · intro h
      exact ⟨d, rfl, (Except.ok.inj h).symm⟩
    · rintro ⟨d', hd, rfl⟩
      rw [Option.some.inj hd]
      rfl

/-- A sum of decimals is exact where a decimal holds it or it is refused. -/
theorem decimalSum_exact (h : Rounds) (x y : Decimal) :
    (∀ c, decimalResult (checkedAdd x y) = .ok c → c.exactValue = some (x.value + y.value)) ↔
      checkedAdd x y = none ∨ ∃ d : Decimal, d.value = x.value + y.value := by
  constructor
  · intro hexact
    rcases hsum : checkedAdd x y with _ | r
    · exact .inl rfl
    · exact .inr ⟨r, Option.some.inj (hexact _ (decimalResult_ok.mpr ⟨r, hsum, rfl⟩))⟩
  · rintro hheld c hc
    obtain ⟨r, hr, rfl⟩ := decimalResult_ok.mp hc
    rcases hheld with hnone | ⟨d, hd⟩
    · exact nomatch hr.symm.trans hnone
    · obtain ⟨r', hr', hvalue⟩ := h.add_held x y d hd
      rw [exactValue, Option.some.inj (hr.symm.trans hr'), hvalue]

omit [Chrono] [Arithmetic] [Products] in
theorem value_eq_zero {d : Decimal} : d.value = 0 ↔ d.mantissa = 0 := by
  rw [Decimal.value, div_eq_zero_iff, or_iff_left (by positivity), Int.cast_eq_zero]

/-- A product of decimals is exact where it is no zero of other factors. -/
theorem decimalProduct_exact (h : Rounds) (x y : Decimal) :
    (∀ c, decimalResult (exactMul x y) = .ok c → c.exactValue = some (x.value * y.value)) ↔
      ∀ r, checkedMul x y = some r → r.mantissa = 0 → x.mantissa = 0 ∨ y.mantissa = 0 := by
  constructor
  · intro hexact r hr hzero
    have hmul : exactMul x y = some r := by
      rw [exactMul, hr, Option.filter_some, if_pos (by simp [exactly, hzero])]
    have hvalue := Option.some.inj (hexact _ (decimalResult_ok.mpr ⟨r, hmul, rfl⟩))
    rw [value_eq_zero.mpr hzero] at hvalue
    exact (mul_eq_zero.mp hvalue.symm).imp value_eq_zero.mp value_eq_zero.mp
  · rintro hheld c hc
    obtain ⟨r, hr, rfl⟩ := decimalResult_ok.mp hc
    obtain ⟨hr, hkept⟩ := Option.filter_eq_some_iff.mp hr
    rw [exactly, Bool.or_eq_true, decide_eq_true_eq, decide_eq_true_eq] at hkept
    rw [exactValue]
    congr 1
    rcases hkept with hzero | hscale
    · rw [value_eq_zero.mpr hzero, eq_comm, mul_eq_zero]
      exact (hheld r hr hzero).imp value_eq_zero.mpr value_eq_zero.mpr
    · exact (h.mul_dropped x y r hr).resolve_right (by omega)

/-- The exact sum is one a decimal holds, where a decimal is added and not refused. -/
def SumHeld (a b : Doc) : Prop :=
  ∀ x y u v, operand a = .ok x → operand b = .ok y → asDecimals x y = some (u, v) →
    checkedAdd u v = none ∨ ∃ d : Decimal, d.value = u.value + v.value

/-- No decimals other than zero have a product that is rounded to zero. -/
def ProductHeld (a b : Doc) : Prop :=
  ∀ x y u v, operand a = .ok x → operand b = .ok y → asDecimals x y = some (u, v) →
    ∀ r, checkedMul u v = some r → r.mantissa = 0 → u.mantissa = 0 ∨ v.mantissa = 0

/-- Two numbers without floats are both integers, or two decimals for arithmetic. -/
theorem operands_cases (a b : Doc) {x y : Operand} {p q : ℚ} (hx : x.exactValue = some p) (hy : y.exactValue = some q)
    (hxi : ∀ i, x = .int i → -(2 ^ 63) ≤ i ∧ i < 2 ^ 64) (hyi : ∀ i, y = .int i → -(2 ^ 63) ≤ i ∧ i < 2 ^ 64) :
    (∃ i j : Int, x = .int i ∧ y = .int j ∧ p = i ∧ q = j) ∨
      ∃ u v, asDecimals x y = some (u, v) ∧ u.value + v.value = p + q ∧ u.value * v.value = p * q ∧
        sum a b x y = decimalResult (checkedAdd u v) ∧ product a b x y = decimalResult (exactMul u v) := by
  have hdec {i : Int} (hi : -(2 ^ 63) ≤ i ∧ i < 2 ^ 64) : ∃ d, intAsDecimal i = some d ∧ d.value = i :=
    ⟨_, dif_pos hi, value_intAsDecimal (dif_pos hi)⟩
  cases x with
  | float f => exact nomatch hx
  | int i =>
      obtain rfl := Option.some.inj hx
      cases y with
      | float f => exact nomatch hy
      | int j =>
          obtain rfl := Option.some.inj hy
          exact .inl ⟨i, j, rfl, rfl, rfl, rfl⟩
      | decimal y =>
          obtain rfl := Option.some.inj hy
          obtain ⟨d, hd, hvalue⟩ := hdec (hxi i rfl)
          refine .inr ⟨y, d, ?_, ?_, ?_, ?_, ?_⟩
          · rw [asDecimals, hd, Option.map_some]
          · rw [hvalue, add_comm]
          · rw [hvalue, mul_comm]
          · rw [sum, hd, Option.bind_some]
          · rw [product, hd, Option.bind_some]
  | decimal x =>
      obtain rfl := Option.some.inj hx
      cases y with
      | float f => exact nomatch hy
      | int j =>
          obtain rfl := Option.some.inj hy
          obtain ⟨d, hd, hvalue⟩ := hdec (hyi j rfl)
          refine .inr ⟨x, d, ?_, ?_, ?_, ?_, ?_⟩
          · rw [asDecimals, hd, Option.map_some]
          · rw [hvalue]
          · rw [hvalue]
          · rw [sum, hd, Option.bind_some]
          · rw [product, hd, Option.bind_some]
      | decimal y =>
          obtain rfl := Option.some.inj hy
          exact .inr ⟨x, y, rfl, rfl, rfl, rfl, rfl⟩

omit [Products] in
theorem intSum_exact (a b : Doc) (i j : Int) {c : Doc} (h : sum a b (.int i) (.int j) = .ok c) :
    c.exactValue = some ((i : ℚ) + j) := by
  rw [sum] at h
  rw [intResult_exact h, Int.cast_add]

theorem intProduct_exact (a b : Doc) (i j : Int) {c : Doc} (h : product a b (.int i) (.int j) = .ok c) :
    c.exactValue = some ((i : ℚ) * j) := by
  rw [product] at h
  split at h
  · rw [intResult_exact h, Int.cast_mul]
  · exact nomatch h

/-- Sums and products of numbers other than floats are exact exactly where a decimal sum
fits one, or is refused, and no decimal product is rounded to zero. -/
theorem arithmetic_exact (h : Rounds) {a b : Doc} {p q : ℚ} (ha : a.exactValue = some p) (hb : b.exactValue = some q) :
    ((∀ c, add a b = .ok c → c.exactValue = some (p + q)) ↔ SumHeld a b) ∧
      ((∀ c, mul a b = .ok c → c.exactValue = some (p * q)) ↔ ProductHeld a b) := by
  obtain ⟨x, hx, hxv, hxi⟩ := operand_exact ha
  obtain ⟨y, hy, hyv, hyi⟩ := operand_exact hb
  have hadd : add a b = sum a b x y := by
    rw [add, hx, hy]
    rfl
  have hmul : mul a b = product a b x y := by
    rw [mul, hx, hy]
    rfl
  have hoperands {x' y' : Operand} (hx' : operand a = .ok x') (hy' : operand b = .ok y') : x' = x ∧ y' = y :=
    ⟨Except.ok.inj (hx'.symm.trans hx), Except.ok.inj (hy'.symm.trans hy)⟩
  rw [hadd, hmul]
  rcases operands_cases a b hxv hyv hxi hyi with ⟨i, j, rfl, rfl, rfl, rfl⟩ | ⟨u, v, huv, hsum, hprod, hs, hp⟩
  · constructor
    · refine ⟨fun _ x' y' u v hx' hy' huv => ?_, fun _ c hc => intSum_exact a b i j hc⟩
      obtain ⟨rfl, rfl⟩ := hoperands hx' hy'
      cases huv
    · refine ⟨fun _ x' y' u v hx' hy' huv => ?_, fun _ c hc => intProduct_exact a b i j hc⟩
      obtain ⟨rfl, rfl⟩ := hoperands hx' hy'
      cases huv
  · rw [hs, hp, ← hsum, ← hprod, decimalSum_exact h, decimalProduct_exact h]
    constructor
    · constructor
      · intro hheld x' y' u' v' hx' hy' huv'
        obtain ⟨rfl, rfl⟩ := hoperands hx' hy'
        obtain ⟨rfl, rfl⟩ := Prod.mk.inj (Option.some.inj (huv.symm.trans huv'))
        exact hheld
      · exact fun hheld => hheld x y u v hx hy huv
    · constructor
      · intro hheld x' y' u' v' hx' hy' huv'
        obtain ⟨rfl, rfl⟩ := hoperands hx' hy'
        obtain ⟨rfl, rfl⟩ := Prod.mk.inj (Option.some.inj (huv.symm.trans huv'))
        exact hheld
      · exact fun hheld => hheld x y u v hx hy huv

end

section Samples

open Reference

/-- A tenth, rounded to the nearest, the even one of two. -/
def tenth (m : Int) : Int :=
  let q := m.natAbs / 10
  let r := m.natAbs % 10
  let n : Nat := if 5 < r ∨ (r = 5 ∧ q % 2 = 1) then q + 1 else q
  if m < 0 then -n else n

theorem tenth_mul (m : Int) : tenth (10 * m) = m := by
  have hr : (10 * m).natAbs % 10 = 0 := by omega
  have hq : (10 * m).natAbs / 10 = m.natAbs := by omega
  have hround : ¬ (5 < 0 ∨ 0 = 5 ∧ m.natAbs % 2 = 1) := by omega
  simp only [tenth, hr, hq, if_neg hround]
  by_cases hm : m < 0
  · rw [if_pos (by omega)]
    omega
  · rw [if_neg (by omega)]
    omega

/-- A mantissa and a scale as a decimal, with as many decimals dropped as it takes. -/
def fit : Nat → Int → Option Decimal
  | 0, m => if h : m.natAbs < 2 ^ 96 then some ⟨m, 0, h, Decimal.zero_scale⟩ else none
  | s + 1, m => if h : m.natAbs < 2 ^ 96 ∧ s + 1 ≤ 28 then some ⟨m, s + 1, h.1, h.2⟩ else fit s (tenth m)

theorem fit_scale {s : Nat} {m : Int} {r : Decimal} (h : fit s m = some r) : r.scale ≤ s := by
  induction s generalizing m with
  | zero =>
      rw [fit] at h
      split at h
      · rw [← Option.some.inj h]
      · exact nomatch h
  | succ s ih =>
      rw [fit] at h
      split at h
      · rw [← Option.some.inj h]
      · exact Nat.le_succ_of_le (ih h)

theorem fit_dropped {s : Nat} {m : Int} {r : Decimal} (h : fit s m = some r) :
    r.value = m / 10 ^ s ∨ r.scale < s := by
  cases s with
  | zero =>
      rw [fit] at h
      split at h
      · rw [← Option.some.inj h]
        exact .inl rfl
      · exact nomatch h
  | succ s =>
      rw [fit] at h
      split at h
      · rw [← Option.some.inj h]
        exact .inl rfl
      · exact .inr (Nat.lt_succ_of_le (fit_scale h))

/-- A number that a decimal holds and that is too long for one at this scale ends with a
zero. -/
theorem tens_of_held {s : Nat} {m : Int} {d : Decimal} (h : d.value = m / 10 ^ (s + 1))
    (hno : ¬ (m.natAbs < 2 ^ 96 ∧ s + 1 ≤ 28)) : ∃ k, m = 10 * k := by
  rw [Decimal.value, div_eq_div_iff (by positivity) (by positivity)] at h
  have hcross : d.mantissa * 10 ^ (s + 1) = m * 10 ^ d.scale := by exact_mod_cast h
  by_cases hs : d.scale ≤ s
  · have hm : d.mantissa * 10 ^ (s + 1 - d.scale) = m := by
      have hpow : (10 : Int) ^ (s + 1) = 10 ^ (s + 1 - d.scale) * 10 ^ d.scale := by
        rw [← pow_add, Nat.sub_add_cancel (by omega)]
      rw [hpow, ← mul_assoc] at hcross
      exact mul_right_cancel₀ (by positivity) hcross
    refine ⟨d.mantissa * 10 ^ (s - d.scale), ?_⟩
    rw [← hm, show s + 1 - d.scale = s - d.scale + 1 by omega, pow_succ]
    ring
  · have hm : d.mantissa = m * 10 ^ (d.scale - (s + 1)) := by
      have hpow : (10 : Int) ^ d.scale = 10 ^ (d.scale - (s + 1)) * 10 ^ (s + 1) := by
        rw [← pow_add, Nat.sub_add_cancel (by omega)]
      rw [hpow, ← mul_assoc] at hcross
      exact mul_right_cancel₀ (by positivity) hcross
    have hscale := d.scale_le
    refine absurd ⟨?_, by omega⟩ hno
    refine lt_of_le_of_lt ?_ d.mantissa_lt
    rw [hm, Int.natAbs_mul]
    exact Nat.le_mul_of_pos_right _ (Int.natAbs_pos.mpr (by positivity))

/-- What a decimal holds is fitted as it is. -/
theorem fit_held {s : Nat} {m : Int} {d : Decimal} (h : d.value = m / 10 ^ s) :
    ∃ r, fit s m = some r ∧ r.value = m / 10 ^ s := by
  induction s generalizing m with
  | zero =>
      have hm : d.mantissa = m * 10 ^ d.scale := by
        rw [Decimal.value, pow_zero, div_one, div_eq_iff (by positivity)] at h
        exact_mod_cast h
      have hlt : m.natAbs < 2 ^ 96 := by
        refine lt_of_le_of_lt ?_ d.mantissa_lt
        rw [hm, Int.natAbs_mul]
        exact Nat.le_mul_of_pos_right _ (Int.natAbs_pos.mpr (by positivity))
      exact ⟨⟨m, 0, hlt, by decide⟩, dif_pos hlt, rfl⟩
  | succ s ih =>
      rw [fit]
      split
      · exact ⟨_, rfl, rfl⟩
      · next hno =>
          obtain ⟨k, rfl⟩ : ∃ k, m = 10 * k := tens_of_held h hno
          have hk : ((10 * k : Int) : ℚ) / 10 ^ (s + 1) = k / 10 ^ s := by
            push_cast
            rw [pow_succ, mul_comm, mul_div_mul_right _ _ (by norm_num)]
          rw [hk] at h ⊢
          rw [tenth_mul]
          exact ih h

def added (x y : Decimal) : Option Decimal :=
  let s := max x.scale y.scale
  fit s (x.mantissa * 10 ^ (s - x.scale) + y.mantissa * 10 ^ (s - y.scale))

local instance sums : Arithmetic where
  checkedAdd := added
  jsonText := jsonText

local instance products : Products where
  checkedMul x y := fit (x.scale + y.scale) (x.mantissa * y.mantissa)

theorem added_value (x y : Decimal) : ((x.mantissa * 10 ^ (max x.scale y.scale - x.scale) +
    y.mantissa * 10 ^ (max x.scale y.scale - y.scale) : Int) : ℚ) / 10 ^ max x.scale y.scale = x.value + y.value := by
  have hvalue (d : Decimal) {s : Nat} (h : d.scale ≤ s) : (d.mantissa : ℚ) * 10 ^ (s - d.scale) / 10 ^ s = d.value := by
    have hpow : (10 : ℚ) ^ s = 10 ^ d.scale * 10 ^ (s - d.scale) := by rw [← pow_add, Nat.add_sub_cancel' h]
    rw [hpow, mul_div_mul_right _ _ (by positivity), Decimal.value]
  push_cast
  rw [add_div, hvalue x (le_max_left _ _), hvalue y (le_max_right _ _)]

theorem sums_round : Rounds := by
  refine ⟨fun x y d h => ?_, fun x y r h => ?_⟩
  · rw [← added_value] at h ⊢
    exact fit_held h
  · rcases fit_dropped h with hvalue | hscale
    · left
      rw [hvalue, Decimal.value, Decimal.value, pow_add]
      push_cast
      exact (div_mul_div_comm _ _ _ _).symm
    · exact .inr hscale

/-- `7922816251426433759354395033.5`: no decimal holds a hundredth more. -/
def largeTenths : Decimal := ⟨79228162514264337593543950335, 1, by decide, by decide⟩

def hundredth : Decimal := .of 1 2 (by decide)

/-- The least decimal above zero. -/
def least : Decimal := ⟨1, 28, by decide, by decide⟩

/-- A sum that is as its first term was, and a product of nothing but decimals above zero
that is zero. -/
theorem rounded_results :
    add (.decimal largeTenths) (.decimal hundredth) = .ok (.decimal largeTenths) ∧
      largeTenths.value ≠ largeTenths.value + hundredth.value ∧
      mul (.decimal least) (.decimal least) = .ok (.decimal ⟨0, 28, by decide, by decide⟩) ∧
      least.value * least.value ≠ 0 := by
  have hleast : operand (.decimal least) = .ok (.decimal least) := by
    have hnone : least.u64BeyondI64 = none := by decide
    rw [operand, hnone]
  have hzero : fit (28 + 28) (1 * 1) = some ⟨0, 28, by decide, by decide⟩ := by decide +kernel
  refine ⟨rfl, ?_, ?_, ?_⟩
  · norm_num [Decimal.value, hundredth]
  · rw [mul, hleast]
    show decimalResult ((fit (28 + 28) (1 * 1)).filter (exactly least least)) = _
    rw [hzero]
    rfl
  · norm_num [Decimal.value, least]

theorem halves_exact :
    ((∀ c, add (.int 1) (.decimal ⟨5, 1, by decide, by decide⟩) = .ok c → c.exactValue = some (1 + 5 / 10 ^ 1)) ↔
        SumHeld (.int 1) (.decimal ⟨5, 1, by decide, by decide⟩)) ∧
      ((∀ c, mul (.int 1) (.decimal ⟨5, 1, by decide, by decide⟩) = .ok c → c.exactValue = some (1 * (5 / 10 ^ 1))) ↔
        ProductHeld (.int 1) (.decimal ⟨5, 1, by decide, by decide⟩)) :=
  arithmetic_exact sums_round rfl rfl

end Samples

end Doc

end KivaDb
