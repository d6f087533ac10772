import KivaDb.Doc

namespace KivaDb

namespace Time

theorem isDigit_of_mem_padded {width n : Nat} {c : Char} (h : c ∈ padded width n) : c.isDigit = true := by
  unfold padded at h
  rcases List.mem_append.mp h with h | h
  · rw [List.eq_of_mem_replicate h]
    rfl
  · exact Nat.isDigit_of_mem_toDigits (by decide) (by decide) h

/-- The number that the digits are of. -/
theorem ofDigitChars_padded (width n : Nat) : Nat.ofDigitChars 10 (padded width n) 0 = n := by
  unfold padded
  rw [Nat.ofDigitChars_append, Nat.ofDigitChars_replicate_zero, Nat.mul_zero, Nat.ofDigitChars_ten_toDigits]

theorem length_padded (width n : Nat) : width ≤ (padded width n).length := by
  unfold padded
  rw [List.length_append, List.length_replicate]
  omega

end Time

namespace Decimal

open Time

variable (d : Decimal)

def digits : List Char := padded (d.scale + 1) d.mantissa.natAbs

def whole : List Char := d.digits.take (d.digits.length - d.scale)

def frac : List Char := d.digits.drop (d.digits.length - d.scale)

def sign : List Char := if d.mantissa < 0 then ['-'] else []

def fraction : List Char := if d.scale = 0 then [] else '.' :: d.frac

theorem toList_text : d.text.toList = d.sign ++ d.whole ++ d.fraction := by
  rw [text, String.toList_ofList]
  rfl

theorem whole_append_frac : d.whole ++ d.frac = d.digits := List.take_append_drop _ _

variable {d}

theorem isDigit_digits {c : Char} (h : c ∈ d.digits) : c.isDigit = true := isDigit_of_mem_padded h

theorem isDigit_whole {c : Char} (h : c ∈ d.whole) : c.isDigit = true := isDigit_digits (List.mem_of_mem_take h)

theorem isDigit_frac {c : Char} (h : c ∈ d.frac) : c.isDigit = true := isDigit_digits (List.mem_of_mem_drop h)

theorem length_frac : d.frac.length = d.scale := by
  have hlen : d.scale + 1 ≤ d.digits.length := length_padded _ _
  rw [frac, List.length_drop]
  omega

theorem whole_ne_nil : d.whole ≠ [] := by
  have hlen : d.scale + 1 ≤ d.digits.length := length_padded _ _
  intro h
  have hzero := congrArg List.length h
  rw [whole, List.length_take, List.length_nil] at hzero
  omega

/-- The text without its sign and its point. -/
theorem filter_text : d.text.toList.filter Char.isDigit = d.digits := by
  have hdigits {l : List Char} (h : ∀ c ∈ l, c.isDigit = true) : l.filter Char.isDigit = l := List.filter_eq_self.mpr h
  have hsign : d.sign.filter Char.isDigit = [] := by
    unfold sign
    split <;> rfl
  have hfraction : d.fraction.filter Char.isDigit = d.frac := by
    unfold fraction
    split
    · next hs =>
        have hnil : d.frac = [] := List.eq_nil_of_length_eq_zero (length_frac.trans hs)
        rw [hnil]
        rfl
    · rw [List.filter_cons_of_neg (by decide)]
      exact hdigits fun _ => isDigit_frac
  rw [toList_text, List.filter_append, List.filter_append, hsign, hfraction, hdigits fun _ => isDigit_whole,
    List.nil_append, whole_append_frac]

/-- What follows the point. -/
theorem length_after_point : (d.text.toList.dropWhile (· ≠ '.')).tail.length = d.scale := by
  have hno {c : Char} (h : c.isDigit = true) : c ≠ '.' := by
    rintro rfl
    exact absurd h (by decide)
  have hbefore : ∀ c ∈ d.sign ++ d.whole, decide (c ≠ '.') = true := by
    intro c hc
    refine decide_eq_true ?_
    rcases List.mem_append.mp hc with hc | hc
    · unfold sign at hc
      split at hc
      · rw [List.mem_singleton.mp hc]
        decide
      · exact nomatch hc
    · exact hno (isDigit_whole hc)
  rw [toList_text, List.dropWhile_append_of_pos hbefore, fraction]
  split
  · next hs =>
      rw [hs]
      rfl
  · rw [List.dropWhile_cons_of_neg (by simp), List.tail_cons, length_frac]

theorem head_text : d.text.toList.head? = some '-' ↔ d.mantissa < 0 := by
  rw [toList_text, sign]
  by_cases h : d.mantissa < 0
  · rw [if_pos h]
    exact ⟨fun _ => h, fun _ => rfl⟩
  · rw [if_neg h, List.nil_append]
    refine ⟨fun hhead => ?_, fun hneg => absurd hneg h⟩
    obtain ⟨c, cs, hw⟩ := List.exists_cons_of_ne_nil (whole_ne_nil (d := d))
    rw [hw, List.cons_append, List.head?_cons, Option.some.injEq] at hhead
    have hdigit : c.isDigit = true := isDigit_whole (hw ▸ List.mem_cons_self)
    rw [hhead] at hdigit
    exact absurd hdigit (by decide)

/-- A decimal is known by its text. -/
theorem text_injective : Function.Injective text := by
  intro d e h
  have hdigits : d.digits = e.digits := by rw [← filter_text, ← filter_text, h]
  have hscale : d.scale = e.scale := by rw [← length_after_point, ← length_after_point, h]
  have hsign : d.mantissa < 0 ↔ e.mantissa < 0 := by rw [← head_text, ← head_text, h]
  have habs : d.mantissa.natAbs = e.mantissa.natAbs := by
    have hd := ofDigitChars_padded (d.scale + 1) d.mantissa.natAbs
    have he := ofDigitChars_padded (e.scale + 1) e.mantissa.natAbs
    rw [← hd, ← he]
    exact congrArg (fun l => Nat.ofDigitChars 10 l 0) hdigits
  have hmantissa : d.mantissa = e.mantissa := by omega
  cases d
  cases e
  obtain rfl : _ = _ := hmantissa
  obtain rfl : _ = _ := hscale
  rfl

end Decimal

end KivaDb
