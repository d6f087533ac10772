import KivaDb.Doc
import KivaDb.Float

namespace KivaDb

/-- What number arithmetic takes from others: sums of decimals, and JSON as a text. -/
class Arithmetic where
  checkedAdd : Decimal → Decimal → Option Decimal
  jsonText : Json → String

namespace Number

def asI64 : Number → Option Int64
  | posInt n => if n.toNat < 2 ^ 63 then some n.toInt64 else none
  | negInt i => some i
  | float _ => none

def asU64 : Number → Option UInt64
  | posInt n => some n
  | _ => none

def asF64 : Number → F64
  | posInt n => .ofInt n.toNat
  | negInt i => .ofInt i.toInt
  | float f => f

end Number

namespace Num

/-- A JSON number of an integer within 64 bits. -/
def intJson (i : Int) : Option Number :=
  if -(2 ^ 63) ≤ i ∧ i < 2 ^ 63 then some (.ofInt (.ofInt i))
  else if 0 ≤ i ∧ i < 2 ^ 64 then some (.posInt (.ofNat i.toNat))
  else none

def fromInt (i : Int) : Except String Number :=
  match intJson i with
  | some n => .ok n
  | none => .error "the result would be beyond the 64-bit integers"

def fromF64 : Option F64 → Except String Number
  | some f => .ok (.float f)
  | none => .error "the result would be NaN or infinite"

/-- The sum of two numbers: exact while both are integers, else in floating point. -/
def add (a b : Number) : Except String Number :=
  match exact a, exact b with
  | .int x, .int y => fromInt (x + y)
  | _, _ => fromF64 (a.asF64.add b.asF64)

end Num

namespace Doc

variable [Chrono]

def fromNumber (n : Number) : Doc :=
  match n.asI64, n.asU64 with
  | some i, _ => int i
  | none, some u => decimal (NumKey.ofU64 u)
  | none, none => float n.asF64

mutual

/-- A JSON document as typed values: integers within `i64` become `int`, those up to
`u64::MAX` an exact `decimal`, others `float`. -/
def fromJson : Json → Doc
  | .null => null
  | .bool b => bool b
  | .number n => fromNumber n
  | .string s => str s
  | .array items => array (fromItems items)
  | .object m => object (fromMembers m)

def fromItems : List Json → List Doc
  | [] => []
  | j :: js => fromJson j :: fromItems js

def fromMembers : List (String × Json) → List (String × Doc)
  | [] => []
  | (k, j) :: js => (k, fromJson j) :: fromMembers js

end

def typeName : Doc → String
  | null => "null"
  | bool _ => "boolean"
  | int _ => "int"
  | float _ => "float"
  | decimal _ => "decimal"
  | str _ => "string"
  | date _ => "date"
  | dateTime _ => "datetime"
  | time _ => "time"
  | array _ => "array"
  | object _ => "object"

/-- A number as arithmetic sees it: a decimal that JSON held as a 64-bit integer is one. -/
inductive Operand
  | int (i : Int)
  | float (f : F64)
  | decimal (d : Decimal)

def operand : Doc → Except String Operand
  | int i => .ok (.int i.toInt)
  | float f => .ok (.float f)
  | decimal d =>
      match d.u64BeyondI64 with
      | some u => .ok (.int u.toNat)
      | none => .ok (.decimal d)
  | other =>
      let name := other.typeName
      .error s!"a [{name}] is not a number"

def intResult (i : Int) : Except String Doc :=
  if -(2 ^ 63) ≤ i ∧ i < 2 ^ 63 then .ok (int (.ofInt i))
  else if h : 0 ≤ i ∧ i < 2 ^ 64 then .ok (decimal ⟨i, 0, by omega, Decimal.zero_scale⟩)
  else .error "the result would be beyond the 64-bit integers"

def floatResult : Option F64 → Except String Doc
  | some f => .ok (float f)
  | none => .error "the result would be NaN or infinite"

def decimalResult : Option Decimal → Except String Doc
  | some d => .ok (decimal d)
  | none => .error "the result is beyond what a decimal holds exactly (28 decimals, about 7.9 × 10^28)"

def intAsDecimal (i : Int) : Option Decimal :=
  if h : -(2 ^ 63) ≤ i ∧ i < 2 ^ 64 then some ⟨i, 0, by omega, Decimal.zero_scale⟩ else none

variable [Arithmetic]

def mixed (a b : Doc) : String :=
  let x := Arithmetic.jsonText a.toPlainJson
  let y := Arithmetic.jsonText b.toPlainJson
  s!"a decimal and a float do not mix ({x} and {y}): the result would look exact without being so"

/-- The sum of two operands, of documents `a` and `b`. -/
def sum (a b : Doc) : Operand → Operand → Except String Doc
  | .int x, .int y => intResult (x + y)
  | .float x, .float y => floatResult (x.add y)
  | .int i, .float f => floatResult ((F64.ofInt i).add f)
  | .float f, .int i => floatResult ((F64.ofInt i).add f)
  | .decimal _, .float _ => .error (mixed a b)
  | .float _, .decimal _ => .error (mixed a b)
  | .decimal x, .decimal y => decimalResult (Arithmetic.checkedAdd x y)
  | .decimal x, .int i => decimalResult ((intAsDecimal i).bind fun i => Arithmetic.checkedAdd x i)
  | .int i, .decimal x => decimalResult ((intAsDecimal i).bind fun i => Arithmetic.checkedAdd x i)

/-- `a + b`: exact for integers and decimals, in floating point for floats with integers,
and refused for a decimal with a float. -/
def add (a b : Doc) : Except String Doc := do
  let x ← operand a
  let y ← operand b
  sum a b x y

end Doc

theorem toInt_toInt64 {n : UInt64} (h : n.toNat < 2 ^ 63) : n.toInt64.toInt = n.toNat := by
  show n.toBitVec.toInt = n.toBitVec.toNat
  exact BitVec.toInt_eq_toNat_of_lt (by change 2 * n.toNat < 2 ^ 64; omega)

namespace Doc

variable [Chrono]

theorem fromItems_eq_map (js : List Json) : fromItems js = js.map fromJson := by
  induction js with
  | nil => rfl
  | cons j js ih => rw [fromItems, ih, List.map_cons]

theorem fromMembers_eq_map (ms : List (String × Json)) : fromMembers ms = ms.map fun m => (m.1, fromJson m.2) := by
  induction ms with
  | nil => rfl
  | cons m ms ih => rw [fromMembers, ih, List.map_cons]

omit [Chrono] in
/-- A whole number beyond the signed 64 bits is an integer to arithmetic. -/
theorem u64BeyondI64_ofU64 {u : UInt64} (h : ¬ u.toNat < 2 ^ 63) : (NumKey.ofU64 u).u64BeyondI64 = some u := by
  have hne : (u.toNat : Int) ≠ 0 := by omega
  have hu := u.toNat_lt
  have hnorm : (NumKey.ofU64 u).normalize = ((u.toNat : Int), 0) := if_neg hne
  have hrange : (0 : Nat) = 0 ∧ (2 : Int) ^ 63 ≤ u.toNat ∧ (u.toNat : Int) < 2 ^ 64 := ⟨rfl, by omega, by omega⟩
  rw [Decimal.u64BeyondI64, hnorm]
  refine (if_pos hrange).trans ?_
  rw [Int.toNat_natCast, UInt64.ofNat_toNat]

theorem fromNumber_beyond {u : UInt64} (h : ¬ u.toNat < 2 ^ 63) : fromNumber (.posInt u) = decimal (NumKey.ofU64 u) := by
  simp only [fromNumber, Number.asI64, if_neg h, Number.asU64]

theorem operand_fromNumber (n : Number) :
    operand (fromNumber n) = .ok (match Num.exact n with
      | .int i => .int i
      | .float f => .float f) := by
  cases n with
  | posInt u =>
      by_cases h : u.toNat < 2 ^ 63
      · simp only [fromNumber, Number.asI64, if_pos h, operand, Num.exact, toInt_toInt64 h]
      · simp only [fromNumber_beyond h, operand, Num.exact, u64BeyondI64_ofU64 h]
  | negInt i => rfl
  | float f => rfl

theorem fromNumber_ofInt (i : Int64) : fromNumber (.ofInt i) = int i := by
  unfold Number.ofInt
  split
  · next h =>
      have hlt : i.toUInt64.toNat < 2 ^ 63 := by
        rw [Int64.toNat_toUInt64_of_le h]
        have := i.toInt_lt
        show i.toInt.toNat < 2 ^ 63
        omega
      simp only [fromNumber, Number.asI64, if_pos hlt, Int64.toInt64_toUInt64]
  · rfl

theorem intResult_eq (i : Int) : intResult i = (Num.fromInt i).map fromNumber := by
  unfold intResult Num.fromInt Num.intJson
  by_cases hi : -(2 ^ 63) ≤ i ∧ i < 2 ^ 63
  · simp only [if_pos hi, Except.map, fromNumber_ofInt]
  · simp only [if_neg hi]
    by_cases hu : 0 ≤ i ∧ i < 2 ^ 64
    · have hnat : (UInt64.ofNat i.toNat).toNat = i.toNat := UInt64.toNat_ofNat_of_lt (by simp only [UInt64.size]; omega)
      have hbig : ¬ (UInt64.ofNat i.toNat).toNat < 2 ^ 63 := by omega
      simp only [dif_pos hu, if_pos hu, Except.map, fromNumber_beyond hbig, NumKey.ofU64, hnat, Int.toNat_of_nonneg hu.1]
    · simp only [dif_neg hu, if_neg hu, Except.map]

omit [Chrono] in
theorem asF64_int {n : Number} {i : Int} (h : Num.exact n = .int i) : n.asF64 = .ofInt i := by
  cases n with
  | posInt u =>
      rw [Num.exact, Num.Exact.int.injEq] at h
      rw [Number.asF64, h]
  | negInt j =>
      rw [Num.exact, Num.Exact.int.injEq] at h
      rw [Number.asF64, h]
  | float f => cases h

omit [Chrono] in
theorem asF64_float {n : Number} {f : F64} (h : Num.exact n = .float f) : n.asF64 = f := by
  cases n with
  | float g =>
      rw [Num.exact, Num.Exact.float.injEq] at h
      exact h
  | _ => cases h

theorem floatResult_eq (r : Option F64) : floatResult r = (Num.fromF64 r).map fromNumber := by
  cases r with
  | none => rfl
  | some f => rfl

/-- Typed and JSON numbers add up alike. -/
theorem add_fromNumber [Arithmetic] (a b : Number) :
    add (fromNumber a) (fromNumber b) = (Num.add a b).map fromNumber := by
  rw [add, operand_fromNumber, operand_fromNumber, Num.add]
  show sum _ _ _ _ = _
  rcases ha : Num.exact a with x | x <;> rcases hb : Num.exact b with y | y
  · rw [sum, intResult_eq]
  · rw [sum, asF64_int ha, asF64_float hb, floatResult_eq]
  · rw [sum, asF64_float ha, asF64_int hb, F64.add_comm x, floatResult_eq]
  · rw [sum, asF64_float ha, asF64_float hb, floatResult_eq]

end Doc

end KivaDb
