import Mathlib.Data.UInt
import Mathlib.Data.List.Basic
import Mathlib.Tactic.Ring

namespace KivaDb.Lib.LittleEndian

abbrev Bytes := List UInt8

/-- The `n` bytes of `b` from byte `i` on. -/
def slice (b : Bytes) (i n : Nat) : Bytes := (b.drop i).take n

/-- The `w` little-endian bytes of `n`; what does not fit is dropped. -/
def toLE : Nat → Nat → Bytes
  | 0, _ => []
  | w + 1, n => UInt8.ofNat n :: toLE w (n / 256)

def ofLE : Bytes → Nat
  | [] => 0
  | b :: bs => b.toNat + 256 * ofLE bs

def le16 (x : UInt16) : Bytes := toLE 2 x.toNat

def le32 (x : UInt32) : Bytes := toLE 4 x.toNat

def le64 (x : UInt64) : Bytes := toLE 8 x.toNat

def leI64 (x : Int64) : Bytes := le64 x.toUInt64

def u16At (b : Bytes) (i : Nat) : UInt16 := UInt16.ofNat (ofLE (slice b i 2))

def u32At (b : Bytes) (i : Nat) : UInt32 := UInt32.ofNat (ofLE (slice b i 4))

def u64At (b : Bytes) (i : Nat) : UInt64 := UInt64.ofNat (ofLE (slice b i 8))

def i64At (b : Bytes) (i : Nat) : Int64 := (u64At b i).toInt64

def u8At (b : Bytes) (i : Nat) : UInt8 := b.getD i 0

@[simp] theorem length_toLE (w n : Nat) : (toLE w n).length = w := by
  induction w generalizing n with
  | zero => rfl
  | succ w ih => simp [toLE, ih]

theorem ofLE_toLE (w n : Nat) : ofLE (toLE w n) = n % 256 ^ w := by
  induction w generalizing n with
  | zero => simp [toLE, ofLE, Nat.mod_one]
  | succ w ih =>
      have hb : (UInt8.ofNat n).toNat = n % 256 := UInt8.toNat_ofNat'
      rw [toLE, ofLE, ih, hb, pow_succ', Nat.mod_mul (a := 256)]

@[simp] theorem length_le16 (x : UInt16) : (le16 x).length = 2 := length_toLE ..

@[simp] theorem length_le32 (x : UInt32) : (le32 x).length = 4 := length_toLE ..

@[simp] theorem length_le64 (x : UInt64) : (le64 x).length = 8 := length_toLE ..

@[simp] theorem length_leI64 (x : Int64) : (leI64 x).length = 8 := length_toLE ..

theorem length_slice_le (b : Bytes) (i n : Nat) : (slice b i n).length ≤ n := by
  simp [slice]

theorem length_slice {b : Bytes} {i n : Nat} (h : i + n ≤ b.length) : (slice b i n).length = n := by
  simp only [slice, List.length_take, List.length_drop]
  omega

/-- A slice is found where its bytes stand, whatever comes before and after. -/
theorem slice_append_mid (a b c : Bytes) : slice (a ++ (b ++ c)) a.length b.length = b := by
  simp [slice]

theorem slice_eq_of_append {b p f r : Bytes} {i n : Nat} (hb : b = p ++ (f ++ r)) (hi : p.length = i)
    (hn : f.length = n) : slice b i n = f := by
  subst hb hi hn
  exact slice_append_mid p f r

theorem slice_append_right (a b : Bytes) (i n : Nat) :
    slice (a ++ b) (a.length + i) n = slice b i n := by
  rw [slice, slice, List.drop_append, List.drop_eq_nil_of_le (by omega), Nat.add_sub_cancel_left,
    List.nil_append]

theorem slice_append_left {a : Bytes} {i n : Nat} (b : Bytes) (h : i + n ≤ a.length) :
    slice (a ++ b) i n = slice a i n := by
  have hi : i ≤ a.length := by omega
  have hn : n ≤ (a.drop i).length := by rw [List.length_drop]; omega
  rw [slice, slice, List.drop_append_of_le_length hi, List.take_append_of_le_length hn]

theorem slice_slice {b : Bytes} {i n j m : Nat} (h : j + m ≤ n) :
    slice (slice b i n) j m = slice b (i + j) m := by
  simp only [slice, List.drop_take, List.drop_drop, List.take_take]
  congr 1
  omega

theorem u8At_append_left {a : Bytes} {i : Nat} (b : Bytes) (h : i < a.length) :
    u8At (a ++ b) i = u8At a i := by
  simp [u8At, List.getElem?_append_left h]

theorem u8At_append_right (a b : Bytes) (i : Nat) : u8At (a ++ b) (a.length + i) = u8At b i := by
  simp [u8At, List.getElem?_append_right]

theorem u16_le16 (x : UInt16) : UInt16.ofNat (ofLE (le16 x)) = x := by
  rw [le16, ofLE_toLE, Nat.mod_eq_of_lt (by simpa using x.toNat_lt), UInt16.ofNat_toNat]

theorem u32_le32 (x : UInt32) : UInt32.ofNat (ofLE (le32 x)) = x := by
  rw [le32, ofLE_toLE, Nat.mod_eq_of_lt (by simpa using x.toNat_lt), UInt32.ofNat_toNat]

theorem u32At_le32_append (x : UInt32) (rest : Bytes) : u32At (le32 x ++ rest) 0 = x := by
  have hs : slice (le32 x ++ rest) 0 4 = le32 x := slice_eq_of_append (p := []) rfl rfl (length_le32 x)
  rw [u32At, hs, u32_le32]

theorem u64_le64 (x : UInt64) : UInt64.ofNat (ofLE (le64 x)) = x := by
  rw [le64, ofLE_toLE, Nat.mod_eq_of_lt (by simpa using x.toNat_lt), UInt64.ofNat_toNat]

theorem i64_leI64 (x : Int64) : (UInt64.ofNat (ofLE (leI64 x))).toInt64 = x := by
  rw [leI64, u64_le64]
  rfl

section

variable {b p r : Bytes} {i : Nat}

theorem u8At_of_append {x : UInt8} (hb : b = p ++ (x :: r)) (hi : p.length = i) : u8At b i = x := by
  subst hb hi
  exact u8At_append_right p (x :: r) 0

theorem u16At_of_append {x : UInt16} (hb : b = p ++ (le16 x ++ r)) (hi : p.length = i) : u16At b i = x := by
  rw [u16At, slice_eq_of_append hb hi (length_le16 x), u16_le16]

theorem u32At_of_append {x : UInt32} (hb : b = p ++ (le32 x ++ r)) (hi : p.length = i) : u32At b i = x := by
  rw [u32At, slice_eq_of_append hb hi (length_le32 x), u32_le32]

theorem u64At_of_append {x : UInt64} (hb : b = p ++ (le64 x ++ r)) (hi : p.length = i) : u64At b i = x := by
  rw [u64At, slice_eq_of_append hb hi (length_le64 x), u64_le64]

theorem i64At_of_append {x : Int64} (hb : b = p ++ (leI64 x ++ r)) (hi : p.length = i) : i64At b i = x := by
  have hu : u64At b i = x.toUInt64 := u64At_of_append hb hi
  rw [i64At, hu]
  rfl

end

end KivaDb.Lib.LittleEndian
