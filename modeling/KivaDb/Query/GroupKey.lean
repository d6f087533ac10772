import KivaDb.Nearest
import KivaDb.Digits
import KivaDb.FromJson

namespace KivaDb

open Std (TransCmp TransOrd)

/-- A value of the field that documents are grouped by. -/
structure GroupKey where
  value : Json

/-- A value and the decimal it is, when it is one. -/
abbrev Amount := Json × Option Decimal

namespace Decimal

def normalized (d : Decimal) : Decimal where
  mantissa := (Num.normalize d.mantissa d.scale).1
  scale := (Num.normalize d.mantissa d.scale).2
  mantissa_lt := (Num.normalize_le _ _).1.trans_lt d.mantissa_lt
  scale_le := (Num.normalize_le _ _).2.trans d.scale_le

theorem value_normalized (d : Decimal) : d.normalized.value = d.value := Num.normalize_value _ _

theorem normalized_last (d : Decimal) : d.normalized.scale = 0 ∨ d.normalized.mantissa % 10 ≠ 0 :=
  Num.normalize_last _ _

/-- Two numbers of no more digits than needed are one where they are equal. -/
theorem scale_le_of_value {d e : Decimal} (hd : d.scale = 0 ∨ d.mantissa % 10 ≠ 0) (h : d.value = e.value) :
    d.scale ≤ e.scale := by
  by_contra hlt
  have hcross : d.mantissa * 10 ^ e.scale = e.mantissa * 10 ^ d.scale := by
    rw [value, value, div_eq_div_iff (by positivity) (by positivity)] at h
    exact_mod_cast h
  obtain ⟨k, hk⟩ : ∃ k, d.scale = e.scale + (k + 1) := ⟨d.scale - e.scale - 1, by omega⟩
  have hm : d.mantissa = e.mantissa * 10 ^ k * 10 := by
    rw [hk, pow_add, pow_succ, mul_comm (10 ^ e.scale), ← mul_assoc] at hcross
    rw [mul_assoc]
    exact mul_right_cancel₀ (by positivity) hcross
  omega

theorem normalized_unique {d e : Decimal} (h : d.value = e.value) : d.normalized = e.normalized := by
  have hvalue : d.normalized.value = e.normalized.value := by rw [value_normalized, value_normalized, h]
  have hscale : d.normalized.scale = e.normalized.scale :=
    le_antisymm (scale_le_of_value d.normalized_last hvalue) (scale_le_of_value e.normalized_last hvalue.symm)
  have hmantissa : d.normalized.mantissa = e.normalized.mantissa := by
    rw [value, value, hscale, div_left_inj' (by positivity)] at hvalue
    exact_mod_cast hvalue
  generalize d.normalized = d at hscale hmantissa
  generalize e.normalized = e at hscale hmantissa
  cases d
  cases e
  obtain rfl : _ = _ := hmantissa
  obtain rfl : _ = _ := hscale
  rfl

/-- A decimal without a fraction has no decimals, but for zeros. -/
theorem normalized_of_int {d : Decimal} {i : Int} (h : d.value = i) :
    d.normalized.scale = 0 ∧ d.normalized.mantissa = i := by
  rw [← value_normalized] at h
  have hm : d.normalized.mantissa = i * 10 ^ d.normalized.scale := by
    rw [value, div_eq_iff (by positivity)] at h
    exact_mod_cast h
  have hscale : d.normalized.scale = 0 := by
    by_contra hne
    obtain ⟨k, hk⟩ := Nat.exists_eq_succ_of_ne_zero hne
    refine d.normalized_last.resolve_left hne ?_
    rw [hm, hk, pow_succ, ← mul_assoc]
    exact Int.mul_emod_left _ _
  rw [value, hscale, pow_zero, div_one] at h
  exact ⟨hscale, by exact_mod_cast h⟩

end Decimal

namespace GroupKey

variable [Arithmetic]

def rank : Json → Nat
  | .null => 0
  | .bool _ => 1
  | .number _ => 2
  | .string _ => 3
  | _ => 4

/-- Null, booleans, numbers and texts, then arrays and objects by their JSON text. -/
def cmp (a b : GroupKey) : Ordering :=
  (compare (rank a.value) (rank b.value)).then <|
    match a.value, b.value with
    | .bool x, .bool y => compare x y
    | .number x, .number y => Num.cmp x y
    | .string x, .string y => compare x y
    | .null, .null => .eq
    | x, y => compare (Arithmetic.jsonText x) (Arithmetic.jsonText y)

omit [Arithmetic] in
def amount : Json → ℚ
  | .bool b => if b then 1 else 0
  | .number n => (NumKey.json n).value
  | _ => 0

def text : Json → String
  | .string s => s
  | .null => ""
  | .bool _ => ""
  | .number _ => ""
  | j => Arithmetic.jsonText j

theorem cmp_eq : cmp = compareLex (compareOn fun k => rank k.value)
    (compareLex (compareOn fun k => amount k.value) (compareOn fun k => text k.value)) := by
  have hb (a b : Bool) : compare a b = compare (if a then (1 : ℚ) else 0) (if b then 1 else 0) := by
    cases a <;> cases b <;> decide
  have hn (a b : Number) : Num.cmp a b = Ord.compare (NumKey.json a).value (NumKey.json b).value := NumKey.cmp_eq (.json a) (.json b)
  funext ⟨a⟩ ⟨b⟩
  cases a <;> cases b <;> first
    | rfl
    | simp [cmp, compareLex, compareOn, rank, amount, text, hn, hb, Ordering.then_eq]

instance : TransCmp cmp := by
  rw [cmp_eq]
  infer_instance

instance : Ord GroupKey := ⟨cmp⟩

instance : TransOrd GroupKey := inferInstanceAs (TransCmp cmp)

end GroupKey

namespace Query

open GroupKey

/-- A decimal groups with the JSON number equal to it, if one is, else under its tagged
text. -/
def decimalKey (d : Decimal) : Json :=
  let n := d.normalized
  match if n.scale = 0 then Num.intJson n.mantissa else none with
  | some j => .number j
  | none =>
      -- the float is the text read as one
      match (F64.ofDecimal n).filter fun f => Num.cmpNum (.decimal n) (.float f) = .eq with
      | some f => .number (.float f)
      | none => .object [("$decimal", .string n.text)]

theorem value_intJson {i : Int} {n : Number} (h : Num.intJson i = some n) : (NumKey.json n).value = i := by
  unfold Num.intJson at h
  split at h
  · next hi =>
      rw [← Option.some.inj h, Number.ofInt]
      have hto : (Int64.ofInt i).toInt = i := Int64.toInt_ofInt_of_le hi.1 (by omega)
      split
      · next hle =>
          rw [NumKey.value, Int64.toNat_toUInt64_of_le hle, Int64.toNatClampNeg, hto]
          have hnonneg : 0 ≤ i := by rw [← hto]; exact Int64.le_iff_toInt_le.mp hle
          have : (i.toNat : Int) = i := Int.toNat_of_nonneg hnonneg
          exact_mod_cast this
      · rw [NumKey.value, hto]
  · split at h
    · next hi =>
        rw [← Option.some.inj h, NumKey.value, UInt64.toNat_ofNat_of_lt' (show i.toNat < 2 ^ 64 by omega)]
        have : (i.toNat : Int) = i := Int.toNat_of_nonneg hi.1
        exact_mod_cast this
    · cases h

theorem intJson_isSome {i : Int} (h : -(2 ^ 63) ≤ i ∧ i < 2 ^ 64) : (Num.intJson i).isSome := by
  unfold Num.intJson
  split
  · rfl
  · rw [if_pos (by omega)]
    rfl

theorem cmpNum_float (d : Decimal) (f : F64) : Num.cmpNum (.decimal d) (.float f) = .eq ↔ d.value = f.value := by
  have hcmp : Num.cmpNum (.decimal d) (.float f) = Ord.compare (NumKey.decimal d).value (NumKey.json (.float f)).value :=
    NumKey.cmp_eq (.decimal d) (.json (.float f))
  rw [hcmp, compare_eq_iff_eq]
  exact Iff.rfl

theorem intJson_of_value {d : Decimal} {i : Int} (h : d.value = i) (hi : -(2 ^ 63) ≤ i ∧ i < 2 ^ 64) :
    ((if d.normalized.scale = 0 then Num.intJson d.normalized.mantissa else none) : Option Number).isSome := by
  obtain ⟨hscale, hmantissa⟩ := Decimal.normalized_of_int h
  rw [if_pos hscale, hmantissa]
  exact intJson_isSome hi

/-- The key of a decimal is the number equal to it, where there is one. -/
theorem decimalKey_cases (d : Decimal) :
    (∃ n, decimalKey d = .number n ∧ (NumKey.json n).value = d.value) ∨
      decimalKey d = .object [("$decimal", .string d.normalized.text)] ∧ ∀ n, (NumKey.json n).value ≠ d.value := by
  unfold decimalKey
  dsimp only
  rcases hint : if d.normalized.scale = 0 then Num.intJson d.normalized.mantissa else none with _ | n
  · have hno {i : Int} (h : d.value = i) (hi : -(2 ^ 63) ≤ i ∧ i < 2 ^ 64) : False := by
      have hsome := intJson_of_value h hi
      rw [hint] at hsome
      cases hsome
    rcases hfloat : (F64.ofDecimal d.normalized).filter
      fun f => Num.cmpNum (.decimal d.normalized) (.float f) = .eq with _ | f
    · refine .inr ⟨rfl, fun n hn => ?_⟩
      cases n with
      | posInt u =>
          have := u.toNat_lt
          refine hno (i := u.toNat) ?_ (by omega)
          rw [← hn, NumKey.value, Int.cast_natCast]
      | negInt i =>
          have := i.le_toInt
          have := i.toInt_lt
          exact hno (i := i.toInt) hn.symm (by omega)
      | float f =>
          have hf : f.value = d.normalized.value := by
            rw [Decimal.value_normalized, ← hn, NumKey.value]
          obtain ⟨g, hg, hvalue⟩ := F64.ofDecimal_exact hf
          rw [hg, Option.filter_some, if_pos (decide_eq_true ((cmpNum_float _ g).mpr hvalue.symm))] at hfloat
          cases hfloat
    · refine .inl ⟨.float f, rfl, ?_⟩
      obtain ⟨-, hequal⟩ := Option.filter_eq_some_iff.mp hfloat
      rw [decide_eq_true_eq, cmpNum_float, Decimal.value_normalized] at hequal
      rw [hequal, NumKey.value]
  · refine .inl ⟨n, rfl, ?_⟩
    split at hint
    · next hscale =>
        rw [value_intJson hint, ← Decimal.value_normalized, Decimal.value, hscale, pow_zero, div_one]
    · cases hint

section

variable [Chrono]

/-- The value a document is grouped by. -/
def groupValue (v : Leaf) : Json :=
  match v.decimal? with
  | some d => decimalKey d
  | none => v.toJson

/-- The number a value is: decimals of typed documents are numbers too. -/
def numKey : Amount → Option NumKey
  | (_, some d) => some (.decimal d)
  | (.number n, none) => some (.json n)
  | _ => none

/-- The order of two values for `min` and `max`: numbers by their exact values, before
texts. -/
def orderValues [Arithmetic] (a b : Amount) : Ordering :=
  match numKey a, numKey b with
  | some x, some y => x.cmp y
  | some _, none => .lt
  | none, some _ => .gt
  | none, none => GroupKey.cmp ⟨a.1⟩ ⟨b.1⟩

def kind (a : Amount) : Nat := if (numKey a).isSome then 0 else 1

def number (a : Amount) : ℚ := (numKey a).elim 0 NumKey.value

/-- What is compared of a value that is no number. -/
def rest (a : Amount) : GroupKey := if (numKey a).isSome then ⟨.null⟩ else ⟨a.1⟩

omit [Chrono] in
theorem orderValues_eq [Arithmetic] :
    orderValues = compareLex (compareOn kind) (compareLex (compareOn number) (compareOn rest)) := by
  funext a b
  rcases ha : numKey a with _ | x
  · rcases hb : numKey b with _ | y
    · simp [orderValues, compareLex, compareOn, kind, number, rest, ha, hb]
      rfl
    · simp [orderValues, compareLex, compareOn, kind, number, rest, ha, hb]
      rfl
  · rcases hb : numKey b with _ | y
    · simp [orderValues, compareLex, compareOn, kind, number, rest, ha, hb]
      rfl
    · simp [orderValues, compareLex, compareOn, kind, number, rest, ha, hb, NumKey.cmp_eq]

instance [Arithmetic] : TransCmp orderValues := by
  rw [orderValues_eq]
  infer_instance

end

end Query

namespace Leaf

variable [Chrono]

/-- A value as aggregates compare it. -/
def amount (v : Leaf) : Amount := (v.toJson, v.decimal?)

end Leaf

namespace Query

section

variable [Chrono] [Arithmetic]

omit [Arithmetic] in
theorem groupValue_number {v : Leaf} {x : NumKey} (h : numKey v.amount = some x) :
    (∃ n, groupValue v = .number n ∧ (NumKey.json n).value = x.value) ∨
      ∃ d : Decimal, x.value = d.value ∧ groupValue v = .object [("$decimal", .string d.normalized.text)] ∧
        ∀ n, (NumKey.json n).value ≠ d.value := by
  unfold groupValue
  rw [Leaf.amount] at h
  rcases hd : v.decimal? with _ | d
  · rw [hd] at h
    rcases hj : v.toJson with _ | _ | n | _ | _ | _
    case number =>
      rw [hj] at h
      obtain rfl := Option.some.inj h
      exact .inl ⟨n, rfl, rfl⟩
    all_goals
      rw [hj] at h
      exact nomatch h
  · rw [hd] at h
    obtain rfl := Option.some.inj h
    rcases decimalKey_cases d with hkey | ⟨hkey, hno⟩
    · exact .inl hkey
    · exact .inr ⟨d, rfl, hkey, hno⟩

omit [Chrono] in
theorem cmp_numbers (m n : Number) :
    GroupKey.cmp ⟨.number m⟩ ⟨.number n⟩ = Ord.compare (NumKey.json m).value (NumKey.json n).value :=
  NumKey.cmp_eq (.json m) (.json n)

/-- What the text of JSON tells apart: the texts of decimals under their tag. -/
def TagsApart : Prop :=
  ∀ s t, Arithmetic.jsonText (.object [("$decimal", .string s)]) = Arithmetic.jsonText (.object [("$decimal", .string t)]) →
    s = t

/-- Numbers group together exactly where they are equal. -/
theorem groupValue_eq (ht : TagsApart) {v w : Leaf} {x y : NumKey} (hx : numKey v.amount = some x)
    (hy : numKey w.amount = some y) : GroupKey.cmp ⟨groupValue v⟩ ⟨groupValue w⟩ = .eq ↔ x.value = y.value := by
  rcases groupValue_number hx with ⟨m, hm, hmv⟩ | ⟨d, hd, hkey, hno⟩
  · rcases groupValue_number hy with ⟨n, hn, hnv⟩ | ⟨e, he, hkey', hno'⟩
    · rw [hm, hn, cmp_numbers, compare_eq_iff_eq, hmv, hnv]
    · rw [hm, hkey']
      refine ⟨fun h => (nomatch h), fun h => absurd ?_ (hno' m)⟩
      rw [hmv, h, he]
  · rcases groupValue_number hy with ⟨n, hn, hnv⟩ | ⟨e, he, hkey', hno'⟩
    · rw [hkey, hn]
      refine ⟨fun h => (nomatch h), fun h => absurd ?_ (hno n)⟩
      rw [hnv, ← h, hd]
    · have hcmp : GroupKey.cmp ⟨groupValue v⟩ ⟨groupValue w⟩ =
          Ord.compare (Arithmetic.jsonText (groupValue v)) (Arithmetic.jsonText (groupValue w)) := by
        rw [hkey, hkey']
        rfl
      rw [hcmp, Std.compare_eq_iff_eq, hkey, hkey', hd, he]
      constructor
      · intro h
        have hnorm := Decimal.text_injective (ht _ _ h)
        rw [← Decimal.value_normalized, hnorm, Decimal.value_normalized]
      · intro h
        rw [Decimal.normalized_unique h]

end

end Query

end KivaDb
