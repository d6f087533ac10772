import KivaDb.Big

namespace KivaDb

namespace F64

/-- How far the mantissa is shifted, counted from the smallest float. -/
def shift (f : F64) : Nat := f.exponent.val - 1

theorem mantissa_lt (f : F64) : f.mantissa < 2 ^ 53 := by
  have h := f.fraction.isLt
  unfold mantissa
  split <;> omega

theorem exp_eq (f : F64) : f.exp = (f.shift : Int) - 1074 := by
  unfold exp shift
  split <;> omega

theorem mantissa_of_shift {f : F64} (h : 0 < f.shift) : 2 ^ 52 ≤ f.mantissa := by
  unfold shift at h
  rw [mantissa, if_neg (by omega)]
  omega

theorem value_eq (f : F64) :
    f.value = (if f.negative && f.mantissa ≠ 0 then -1 else 1) * (f.mantissa * 2 ^ f.shift / 2 ^ 1074) := by
  unfold value Num.Ratio.ofFloat
  dsimp only
  rw [exp_eq]
  by_cases h : (0 : Int) ≤ (f.shift : Int) - 1074
  · rw [if_pos h]
    have hs : f.shift = ((f.shift : Int) - 1074).toNat + 1074 := by omega
    generalize hn : ((f.shift : Int) - 1074).toNat = n at hs ⊢
    rw [hs, pow_add, ← mul_assoc, mul_div_assoc, div_self (by positivity), mul_one]
    simp [Num.Ratio.value]
  · rw [if_neg h]
    generalize hn : (-((f.shift : Int) - 1074)).toNat = n
    have hs : 1074 = f.shift + n := by omega
    rw [hs, pow_add, mul_comm (f.mantissa : ℚ), mul_div_mul_left _ _ (by positivity)]
    simp [Num.Ratio.value]

theorem negative_iff {f : F64} : f.negative = true ∧ f.mantissa ≠ 0 ↔ f.value < 0 := by
  have hmag : (0 : ℚ) ≤ f.mantissa * 2 ^ f.shift / 2 ^ 1074 := by positivity
  by_cases h : f.negative = true ∧ f.mantissa ≠ 0
  · have hpos : (0 : ℚ) < f.mantissa * 2 ^ f.shift / 2 ^ 1074 := by
      have hm : (0 : ℚ) < f.mantissa := by exact_mod_cast Nat.pos_of_ne_zero h.2
      positivity
    have hvalue := f.value_eq
    rw [if_pos (by simpa using h), neg_one_mul] at hvalue
    exact ⟨fun _ => by rw [hvalue]; exact neg_lt_zero.mpr hpos, fun _ => h⟩
  · have hvalue := f.value_eq
    rw [if_neg (by simpa using h), one_mul] at hvalue
    refine ⟨fun h' => absurd h' h, fun hneg => ?_⟩
    rw [hvalue] at hneg
    exact absurd hneg (not_lt.mpr hmag)

/-- The value without its sign. -/
theorem abs_value (f : F64) : |f.value| = f.mantissa * 2 ^ f.shift / 2 ^ 1074 := by
  have hmag : (0 : ℚ) ≤ f.mantissa * 2 ^ f.shift / 2 ^ 1074 := by positivity
  rw [value_eq]
  split
  · rw [neg_one_mul, abs_neg, abs_of_nonneg hmag]
  · rw [one_mul, abs_of_nonneg hmag]

/-- Equal magnitudes have one representation. -/
theorem shift_unique {f g : F64} (h : f.mantissa * 2 ^ f.shift = g.mantissa * 2 ^ g.shift) (hle : f.shift ≤ g.shift) :
    f.shift = g.shift ∧ f.mantissa = g.mantissa := by
  obtain ⟨n, hn⟩ := Nat.exists_eq_add_of_le hle
  have hm : f.mantissa = g.mantissa * 2 ^ n := by
    rw [hn, pow_add, ← mul_assoc, mul_right_comm] at h
    exact Nat.eq_of_mul_eq_mul_right (Nat.two_pow_pos _) h
  have hf := f.mantissa_lt
  cases n with
  | zero => exact ⟨by omega, by simpa using hm⟩
  | succ n =>
      have hg := mantissa_of_shift (f := g) (by omega)
      have hpow := Nat.two_pow_pos n
      rw [pow_succ, mul_comm (2 ^ n), ← mul_assoc] at hm
      have hmul := Nat.mul_le_mul_left (g.mantissa * 2) hpow
      omega

/-- A finite float other than zero is known by its value. -/
theorem eq_of_value {f g : F64} (h : f.value = g.value) (hne : f.value ≠ 0) : f = g := by
  have habs : (f.mantissa * 2 ^ f.shift : ℚ) / 2 ^ 1074 = g.mantissa * 2 ^ g.shift / 2 ^ 1074 := by
    rw [← abs_value, ← abs_value, h]
  have hmag : f.mantissa * 2 ^ f.shift = g.mantissa * 2 ^ g.shift := by
    have hq := (div_left_inj' (by positivity)).mp habs
    exact_mod_cast hq
  have hboth : f.shift = g.shift ∧ f.mantissa = g.mantissa := by
    rcases Nat.le_total f.shift g.shift with hle | hle
    · exact shift_unique hmag hle
    · obtain ⟨h1, h2⟩ := shift_unique hmag.symm hle
      exact ⟨h1.symm, h2.symm⟩
  obtain ⟨hshift, hmant⟩ := hboth
  have hzero : f.mantissa ≠ 0 := by
    intro hm
    apply hne
    rw [value_eq, hm]
    simp
  have hneg : f.negative = g.negative := by
    have hiff : f.value < 0 ↔ g.value < 0 := by rw [h]
    rw [← negative_iff, ← negative_iff, ← hmant] at hiff
    exact Bool.eq_iff_iff.mpr ⟨fun hf => (hiff.mp ⟨hf, hzero⟩).1, fun hg => (hiff.mpr ⟨hg, hzero⟩).1⟩
  have hfields : f.exponent.val = g.exponent.val ∧ f.fraction.val = g.fraction.val := by
    have hf := f.fraction.isLt
    have hg := g.fraction.isLt
    unfold shift at hshift
    unfold mantissa at hmant
    by_cases h1 : f.exponent.val = 0 <;> by_cases h2 : g.exponent.val = 0
    · rw [if_pos h1, if_pos h2] at hmant
      omega
    · rw [if_pos h1, if_neg h2] at hmant
      omega
    · rw [if_neg h1, if_pos h2] at hmant
      omega
    · rw [if_neg h1, if_neg h2] at hmant
      omega
  obtain ⟨fn, fe, ff⟩ := f
  obtain ⟨gn, ge, gf⟩ := g
  simp only at hneg hfields
  rw [hneg, Fin.ext hfields.1, Fin.ext hfields.2]

end F64

namespace Num

/-- The mantissa and the scale without trailing zeros. -/
def normalize (m : Int) : Nat → Int × Nat
  | 0 => (m, 0)
  | s + 1 => if m % 10 = 0 then normalize (m / 10) s else (m, s + 1)

theorem normalize_value (m : Int) (s : Nat) : ((normalize m s).1 : ℚ) / 10 ^ (normalize m s).2 = m / 10 ^ s := by
  induction s generalizing m with
  | zero => rfl
  | succ s ih =>
      rw [normalize]
      split
      · next h =>
          have hm : m = m / 10 * 10 := by omega
          rw [ih]
          conv_rhs => rw [hm]
          rw [pow_succ]
          push_cast
          exact (mul_div_mul_right _ _ (by norm_num)).symm
      · rfl

theorem normalize_last (m : Int) (s : Nat) : (normalize m s).2 = 0 ∨ (normalize m s).1 % 10 ≠ 0 := by
  induction s generalizing m with
  | zero => exact .inl rfl
  | succ s ih =>
      rw [normalize]
      split
      · exact ih _
      · next h => exact .inr h

theorem normalize_le (m : Int) (s : Nat) : (normalize m s).1.natAbs ≤ m.natAbs ∧ (normalize m s).2 ≤ s := by
  induction s generalizing m with
  | zero => exact ⟨le_refl _, le_refl _⟩
  | succ s ih =>
      rw [normalize]
      split
      · obtain ⟨h1, h2⟩ := ih (m / 10)
        omega
      · exact ⟨le_refl _, le_refl _⟩

/-- A mantissa without its factors of 2, and the exponent that then belongs to it. -/
def odd (m : Nat) (e : Int) : Nat × Int := if m % 2 = 0 ∧ m ≠ 0 then odd (m / 2) (e + 1) else (m, e)

theorem odd_spec (m : Nat) (e : Int) (hm : m ≠ 0) :
    (odd m e).1 % 2 = 1 ∧ ∃ j : Nat, m = (odd m e).1 * 2 ^ j ∧ (odd m e).2 = e + j := by
  induction m, e using odd.induct with
  | case1 m e h ih =>
      rw [odd, if_pos h]
      obtain ⟨hodd, j, hj, he⟩ := ih (by omega)
      refine ⟨hodd, j + 1, ?_, by rw [he]; push_cast; ring⟩
      rw [pow_succ, ← mul_assoc, ← hj]
      omega
  | case2 m e h =>
      rw [odd, if_neg h]
      exact ⟨by omega, 0, by simp, by simp⟩

/-- What a number hashes as, equal for equal values whatever their kinds. -/
inductive NumClass
  | integer (i : Int)
  | decimal (mantissa : Int) (scale : Nat)
  | float (f : F64)
  deriving DecidableEq

/-- The float `1.0e38`. -/
def e38 : Nat := 99999999999999997748809823456034029568

/-- The normalized decimal a fractional float equals exactly, if one does. -/
def floatAsDecimal (f : F64) : Option NumClass :=
  let (m, e) := odd f.mantissa f.exp
  -- m odd, f = m / 2^k = m·5^k / 10^k; no trailing zero, since m is odd
  let k := (-e).toNat
  if 1 ≤ k ∧ k ≤ 28 then
    let mantissa := m * 5 ^ k
    if 2 ^ 96 ≤ mantissa then none
    else some (.decimal (if f.value < 0 then -mantissa else mantissa) k)
  else none

def numClass : Leaf → NumClass
  | .int i => .integer i
  | .decimal d =>
      match normalize d.mantissa d.scale with
      | (m, 0) => .integer m
      | (m, s + 1) => .decimal m (s + 1)
  | .float f =>
      -- within the 128-bit integers, a whole float is that integer
      if (truncate f.value : ℚ) = f.value ∧ |f.value| < e38 then .integer (truncate f.value)
      else (floatAsDecimal f).getD (.float f)

namespace NumClass

def value : NumClass → ℚ
  | integer i => i
  | decimal m s => m / 10 ^ s
  | float f => f.value

/-- A fraction that a decimal without trailing zeros holds. -/
structure Fits (m : Int) (s : Nat) : Prop where
  scale_pos : 0 < s
  scale_le : s ≤ 28
  last : m % 10 ≠ 0
  mantissa_lt : m.natAbs < 2 ^ 96

/-- What distinguishes the classes of equal numbers. -/
def Canonical : NumClass → Prop
  | integer i => |(i : ℚ)| < e38
  | decimal m s => Fits m s
  | float f => ¬ ((truncate f.value : ℚ) = f.value ∧ |f.value| < e38) ∧
      ∀ m s, Fits m s → f.value ≠ m / 10 ^ s

theorem Fits.not_whole {m : Int} {s : Nat} (h : Fits m s) (i : Int) : (i : ℚ) ≠ m / 10 ^ s := by
  intro hi
  rw [eq_div_iff (by positivity)] at hi
  have hm : i * 10 ^ s = m := by exact_mod_cast hi
  obtain ⟨n, rfl⟩ := Nat.exists_eq_succ_of_ne_zero h.scale_pos.ne'
  apply h.last
  rw [← hm, Nat.succ_eq_add_one, pow_succ, ← mul_assoc]
  exact Int.mul_emod_left _ _

theorem Fits.unique {m m' : Int} {s s' : Nat} (h' : Fits m' s') (hle : s ≤ s')
    (heq : (m : ℚ) / 10 ^ s = m' / 10 ^ s') : m = m' ∧ s = s' := by
  obtain ⟨n, rfl⟩ := Nat.exists_eq_add_of_le hle
  have hm : m * 10 ^ n = m' := by
    rw [pow_add, div_eq_div_iff (by positivity) (by positivity), mul_comm (m' : ℚ), mul_left_comm] at heq
    exact_mod_cast mul_left_cancel₀ (by positivity) heq
  cases n with
  | zero => exact ⟨by simpa using hm, rfl⟩
  | succ n =>
      refine absurd ?_ h'.last
      rw [← hm, pow_succ, ← mul_assoc]
      exact Int.mul_emod_left _ _

/-- Classes of equal numbers are equal. -/
theorem Canonical.unique {c d : NumClass} (hc : c.Canonical) (hd : d.Canonical) (h : c.value = d.value) : c = d := by
  have hwhole {i : Int} {f : F64} (hi : Canonical (integer i)) (hf : Canonical (float f)) (h : (i : ℚ) = f.value) :
      False := by
    refine hf.1 ⟨?_, h ▸ hi⟩
    rw [← h]
    simp [truncate]
  have hfloat {f : F64} (hf : Canonical (float f)) : f.value ≠ 0 := by
    intro hzero
    refine hf.1 ⟨?_, ?_⟩
    · rw [hzero]
      simp [truncate]
    · rw [hzero]
      norm_num [e38]
  cases c with
  | integer i =>
      cases d with
      | integer j => exact congrArg integer (Int.cast_injective h)
      | decimal m s => exact absurd h (Fits.not_whole hd i)
      | float f => exact (hwhole hc hd h).elim
  | decimal m s =>
      cases d with
      | integer j => exact absurd h.symm (Fits.not_whole hc j)
      | decimal m' s' =>
          rcases Nat.le_total s s' with hle | hle
          · obtain ⟨rfl, rfl⟩ := Fits.unique hd hle h
            rfl
          · obtain ⟨rfl, rfl⟩ := Fits.unique hc hle h.symm
            rfl
      | float f => exact absurd h.symm (hd.2 m s hc)
  | float f =>
      cases d with
      | integer j => exact (hwhole hd hc h.symm).elim
      | decimal m s => exact absurd h (hc.2 m s hd)
      | float g => exact congrArg float (F64.eq_of_value h (hfloat hc))

end NumClass

open NumClass

/-- A float other than zero is an odd number times a power of 2. -/
theorem abs_value_odd {f : F64} (hm : f.mantissa ≠ 0) :
    (odd f.mantissa f.exp).1 % 2 = 1 ∧ ((odd f.mantissa f.exp).2 < 0 →
      |f.value| = (odd f.mantissa f.exp).1 / 2 ^ (-(odd f.mantissa f.exp).2).toNat) ∧
    (0 ≤ (odd f.mantissa f.exp).2 → ∃ i : Int, f.value = i) := by
  obtain ⟨hodd, j, hj, he⟩ := odd_spec f.mantissa f.exp hm
  generalize (odd f.mantissa f.exp).1 = m at *
  generalize (odd f.mantissa f.exp).2 = e at *
  rw [F64.exp_eq] at he
  have hscaled : |f.value| = m * 2 ^ (j + f.shift) / 2 ^ 1074 := by
    rw [F64.abs_value, hj, pow_add]
    push_cast
    rw [mul_assoc]
  refine ⟨hodd, fun hneg => ?_, fun hpos => ?_⟩
  · have hpow : 1074 = (j + f.shift) + (-e).toNat := by omega
    rw [hscaled, hpow, pow_add _ (j + f.shift), mul_comm (m : ℚ), mul_div_mul_left _ _ (by positivity)]
  · obtain ⟨n, hn⟩ := Nat.exists_eq_add_of_le (show 1074 ≤ j + f.shift by omega)
    have habs : |f.value| = ((m * 2 ^ n : Nat) : ℚ) := by
      rw [hscaled, hn, pow_add, mul_left_comm, mul_div_cancel_left₀ _ (by positivity)]
      push_cast
      rfl
    rcases abs_choice f.value with h | h
    · exact ⟨(m * 2 ^ n : Nat), by rw [← h, habs]; norm_cast⟩
    · refine ⟨-(m * 2 ^ n : Nat), ?_⟩
      rw [h] at habs
      push_cast at habs ⊢
      linarith

/-- A fraction with a power of 2 below the line, as a decimal. -/
theorem fraction_unique {m k s : Nat} {a : Nat} (hm : m % 2 = 1) (hs : 0 < s) (ha : a % 10 ≠ 0)
    (h : (m : ℚ) / 2 ^ k = a / 10 ^ s) : k = s ∧ a = m * 5 ^ k := by
  rw [div_eq_div_iff (by positivity) (by positivity)] at h
  have hcross : m * 10 ^ s = a * 2 ^ k := by exact_mod_cast h
  have h10 : 10 ^ s = 5 ^ s * 2 ^ s := (mul_pow 5 2 s)
  have hm5 : m * 5 ^ s % 2 = 1 := by
    have h5 : 5 ^ s % 2 = 1 := by
      rw [Nat.pow_mod]
      simp
    rw [Nat.mul_mod, hm, h5]
  rw [h10, ← mul_assoc] at hcross
  rcases lt_trichotomy k s with hlt | rfl | hgt
  · obtain ⟨n, rfl⟩ := Nat.exists_eq_add_of_lt hlt
    have hten : m * 5 ^ (k + n) * 2 ^ n * 10 = a := by
      refine Nat.eq_of_mul_eq_mul_right (Nat.two_pow_pos k) ?_
      rw [← hcross]
      ring
    refine absurd ?_ ha
    rw [← hten, Nat.mul_mod_left]
  · exact ⟨rfl, (Nat.eq_of_mul_eq_mul_right (Nat.two_pow_pos k) hcross).symm⟩
  · obtain ⟨n, rfl⟩ := Nat.exists_eq_add_of_lt hgt
    have heven : m * 5 ^ s = a * 2 ^ n * 2 := by
      refine Nat.eq_of_mul_eq_mul_right (Nat.two_pow_pos s) ?_
      rw [hcross]
      ring
    rw [heven, Nat.mul_mod_left] at hm5
    exact absurd hm5 (by omega)

theorem floatAsDecimal_some {f : F64} {c : NumClass} (hm : f.mantissa ≠ 0) (h : floatAsDecimal f = some c) :
    c.value = f.value ∧ c.Canonical := by
  obtain ⟨hodd, hfraction, -⟩ := abs_value_odd hm
  unfold floatAsDecimal at h
  simp only at h
  generalize (odd f.mantissa f.exp).1 = m at *
  generalize (odd f.mantissa f.exp).2 = e at *
  split at h
  · next hk =>
      split at h
      · exact nomatch h
      · next hfits =>
          have habs : |f.value| = ((m * 5 ^ (-e).toNat : Nat) : ℚ) / 10 ^ (-e).toNat := by
            rw [hfraction (by omega), show (10 : ℚ) = 2 * 5 by norm_num, mul_pow]
            push_cast
            exact (mul_div_mul_right _ _ (by positivity)).symm
          have hlast : ((m * 5 ^ (-e).toNat : Nat) : Int) % 10 ≠ 0 := by
            have h5 : 5 ^ (-e).toNat % 2 = 1 := by
              rw [Nat.pow_mod]
              simp
            have hmod : m * 5 ^ (-e).toNat % 2 = 1 := by rw [Nat.mul_mod, hodd, h5]
            omega
          obtain rfl := Option.some.inj h
          simp only [NumClass.value, Canonical]
          split
          · next hneg =>
              rw [abs_of_neg hneg] at habs
              refine ⟨?_, ⟨by omega, hk.2, by omega, by omega⟩⟩
              rw [Int.cast_neg, Int.cast_natCast, neg_div, ← habs, neg_neg]
          · next hpos =>
              rw [abs_of_nonneg (not_lt.mp hpos)] at habs
              exact ⟨by rw [habs, Int.cast_natCast], ⟨by omega, hk.2, by omega, by omega⟩⟩
  · exact nomatch h

theorem floatAsDecimal_none {f : F64} {m : Int} {s : Nat} (hfits : Fits m s) (hvalue : f.value = m / 10 ^ s) :
    floatAsDecimal f ≠ none := by
  have hm : f.mantissa ≠ 0 := by
    intro hzero
    refine hfits.not_whole 0 ?_
    rw [← hvalue, F64.value_eq, hzero]
    simp
  obtain ⟨hodd, hfraction, hwhole⟩ := abs_value_odd hm
  unfold floatAsDecimal
  simp only
  generalize (odd f.mantissa f.exp).1 = n at *
  generalize (odd f.mantissa f.exp).2 = e at *
  rcases lt_or_ge e 0 with hneg | hpos
  · have habs : (n : ℚ) / 2 ^ (-e).toNat = m.natAbs / 10 ^ s := by
      rw [← hfraction hneg, hvalue, abs_div, abs_of_pos (show (0 : ℚ) < 10 ^ s by positivity), Nat.cast_natAbs,
        Int.cast_abs]
    obtain ⟨hk, ha⟩ := fraction_unique hodd hfits.scale_pos (by have := hfits.last; omega) habs
    have hle := hfits.scale_le
    have hlt := hfits.mantissa_lt
    rw [if_pos ⟨by omega, by omega⟩, if_neg (by omega)]
    simp
  · obtain ⟨i, hi⟩ := hwhole hpos
    exact absurd (hi.symm.trans hvalue) (hfits.not_whole i)

theorem numClass_float (f : F64) : (numClass (.float f)).value = f.value ∧ (numClass (.float f)).Canonical := by
  by_cases h : (truncate f.value : ℚ) = f.value ∧ |f.value| < e38
  · rw [numClass, if_pos h]
    refine ⟨h.1, ?_⟩
    rw [Canonical, h.1]
    exact h.2
  · rw [numClass, if_neg h]
    have hm : f.mantissa ≠ 0 := by
      intro hzero
      have hvalue : f.value = 0 := by
        rw [F64.value_eq, hzero]
        simp
      refine h ⟨?_, ?_⟩
      · rw [hvalue]
        simp [truncate]
      · rw [hvalue]
        norm_num [e38]
    rcases hdec : floatAsDecimal f with _ | c
    · exact ⟨rfl, h, fun m s hfits hvalue => floatAsDecimal_none hfits hvalue hdec⟩
    · exact floatAsDecimal_some hm hdec

theorem numClass_decimal (d : Decimal) :
    (numClass (.decimal d)).value = d.mantissa / 10 ^ d.scale ∧ (numClass (.decimal d)).Canonical := by
  have hvalue := normalize_value d.mantissa d.scale
  have hlast := normalize_last d.mantissa d.scale
  have hle := normalize_le d.mantissa d.scale
  have hm := d.mantissa_lt
  have hs := d.scale_le
  rw [numClass]
  split
  · next m heq =>
      rw [heq] at hvalue hle
      rw [pow_zero, div_one] at hvalue
      refine ⟨hvalue, ?_⟩
      have hlt : m.natAbs < e38 := by
        simp only [e38] at hle ⊢
        omega
      rw [Canonical, ← Int.cast_abs, ← Nat.cast_natAbs]
      exact_mod_cast hlt
  · next m s heq =>
      rw [heq] at hvalue hle hlast
      exact ⟨hvalue, ⟨by omega, by omega, hlast.resolve_left (by simp), by omega⟩⟩

end Num

namespace NumKey

open Num NumClass

theorem numClass_leaf (k : NumKey) : (numClass k.leaf).value = k.value ∧ (numClass k.leaf).Canonical := by
  cases k with
  | decimal d => exact numClass_decimal d
  | json n =>
      cases n with
      | posInt n =>
          simp only [leaf, value]
          split
          · refine ⟨by simp [numClass, NumClass.value], ?_⟩
            rw [numClass, Canonical, Int.cast_natCast, Nat.abs_cast]
            have hlt : n.toNat < e38 := by
              simp only [e38]
              omega
            exact_mod_cast hlt
          · obtain ⟨hvalue, hcanonical⟩ := numClass_decimal (ofU64 n)
            exact ⟨by rw [hvalue]; simp [ofU64], hcanonical⟩
      | negInt i =>
          have hlo := i.le_toInt
          have hhi := i.toInt_lt
          refine ⟨rfl, ?_⟩
          have hlt : i.toInt.natAbs < e38 := by
            simp only [e38]
            omega
          rw [leaf, numClass, Canonical, ← Int.cast_abs, ← Nat.cast_natAbs]
          exact_mod_cast hlt
      | float f => exact numClass_float f

/-- The order of the keys of an index, as it is computed in limbs. -/
def ord : NumKey → NumKey → Ordering
  | json a, json b => Num.cmp a b
  | a, b => Big.cmpNum a.leaf b.leaf

theorem ord_eq (a b : NumKey) : ord a b = cmp a b := by
  cases a with
  | json a =>
      cases b with
      | json b => rfl
      | decimal e => exact Big.cmpNum_eq (json a).leaf (decimal e).leaf
  | decimal d =>
      cases b with
      | json b => exact Big.cmpNum_eq (decimal d).leaf (json b).leaf
      | decimal e => exact Big.cmpNum_eq (decimal d).leaf (decimal e).leaf

/-- Numbers of all kinds have one exact order, that of their values, and hash
alike exactly when they are equal. -/
theorem exact_order :
    (∀ a b : NumKey, a.ord b = compare a.value b.value) ∧ (∀ a : NumKey, a.ord a = .eq) ∧
      (∀ a b : NumKey, (a.ord b).swap = b.ord a) ∧
      (∀ a b c : NumKey, a.ord b ≠ .gt → b.ord c ≠ .gt → a.ord c ≠ .gt) ∧
      (∀ a b : NumKey, a.ord b = .eq ↔ a.value = b.value) ∧
      ∀ a b : NumKey, numClass a.leaf = numClass b.leaf ↔ a.ord b = .eq := by
  have hord (a b : NumKey) : a.ord b = compare a.value b.value := by rw [ord_eq, cmp_eq]
  refine ⟨hord, fun a => ?_, fun a b => ?_, fun a b c hab hbc => ?_, fun a b => ?_, fun a b => ?_⟩
  · rw [hord, compare_eq_iff_eq.mpr rfl]
  · rw [hord, hord, Lib.Compare.swap_compare]
  · rw [hord, ne_eq, compare_gt_iff_gt, not_lt] at hab hbc ⊢
    exact hab.trans hbc
  · rw [hord, compare_eq_iff_eq]
  · rw [hord, compare_eq_iff_eq]
    obtain ⟨ha, hca⟩ := a.numClass_leaf
    obtain ⟨hb, hcb⟩ := b.numClass_leaf
    refine ⟨fun h => by rw [← ha, ← hb, h], fun h => hca.unique hcb ?_⟩
    rw [ha, hb, h]

end NumKey

end KivaDb
