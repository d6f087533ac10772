import KivaDb.Nearest
import KivaDb.Rounding
import KivaDb.Time.Iso

namespace KivaDb

inductive Double
  | finite (f : F64)
  | infinite (negative : Bool)
  | nan
  deriving DecidableEq

/-- A whole number in decimal. -/
def intText (i : Int) : List Char := (if i < 0 then ['-'] else []) ++ Nat.toDigits 10 i.natAbs

theorem mem_intText {i : Int} {c : Char} (h : c ∈ intText i) : c.isDigit = true ∨ c = '-' := by
  rcases List.mem_append.mp h with h | h
  · split at h
    · exact .inr (List.mem_singleton.mp h)
    · exact nomatch h
  · exact .inl (Nat.isDigit_of_mem_toDigits (by decide) (by decide) h)

namespace Double

/-- Digits, and a point among them or none, to the nearest float. -/
def parseFinite (negative : Bool) (cs : List Char) : Option F64 :=
  let whole := cs.takeWhile (· ≠ '.')
  let frac := (cs.dropWhile (· ≠ '.')).tail
  if whole = [] ∨ (whole ++ frac).all Char.isDigit = false then none
  else F64.ratio negative (Nat.ofDigitChars 10 (whole ++ frac) 0) (10 ^ frac.length)

/-- A double as the protocol has it in text. -/
def parse (cs : List Char) : Option Double :=
  if cs = ['n', 'a', 'n'] then some .nan
  else if cs = ['i', 'n', 'f'] then some (.infinite false)
  else if cs = ['-', 'i', 'n', 'f'] then some (.infinite true)
  else match cs with
    | '-' :: cs => (parseFinite true cs).map .finite
    | cs => (parseFinite false cs).map .finite

theorem parse_digits {cs : List Char} (hne : cs ≠ []) (h : ∀ c ∈ cs, c.isDigit = true ∨ c = '.') (negative : Bool) :
    parse ((if negative then ['-'] else []) ++ cs) = (parseFinite negative cs).map .finite := by
  have hnot {c : Char} (hc : c ∈ cs) {d : Char} (hd : (d.isDigit || d == '.') = false) : c ≠ d := by
    rintro rfl
    rcases h _ hc with h | h
    · rw [h] at hd
      exact nomatch hd
    · rw [h] at hd
      exact absurd hd (by decide)
  obtain ⟨c, rest, rfl⟩ := List.exists_cons_of_ne_nil hne
  have hn := hnot List.mem_cons_self (d := 'n') (by decide)
  have hi := hnot List.mem_cons_self (d := 'i') (by decide)
  have hm := hnot List.mem_cons_self (d := '-') (by decide)
  cases negative with
  | true =>
      rw [if_pos rfl, List.singleton_append, parse, if_neg, if_neg, if_neg]
      · intro h
        exact hi (List.cons.inj (List.cons.inj h).2).1
      · intro h
        exact absurd (List.cons.inj h).1 (by decide)
      · intro h
        exact absurd (List.cons.inj h).1 (by decide)
  | false =>
      have hne1 : c :: rest ≠ ['n', 'a', 'n'] := fun h => hn (List.cons.inj h).1
      have hne2 : c :: rest ≠ ['i', 'n', 'f'] := fun h => hi (List.cons.inj h).1
      have hne3 : c :: rest ≠ ['-', 'i', 'n', 'f'] := fun h => hm (List.cons.inj h).1
      rw [if_neg (by decide), List.nil_append, parse, if_neg hne1, if_neg hne2, if_neg hne3]
      intro cs h
      exact hm (List.cons.inj h).1

theorem digit_ne_point {c : Char} (h : c.isDigit = true) : decide (c ≠ '.') = true := by
  rw [decide_eq_true_eq]
  rintro rfl
  exact absurd h (by decide)

theorem parseFinite_eq {negative : Bool} {whole frac : List Char} (hne : whole ≠ []) (hw : ∀ c ∈ whole, c.isDigit = true)
    (hf : ∀ c ∈ frac, c.isDigit = true) :
    parseFinite negative (whole ++ '.' :: frac) =
      F64.ratio negative (Nat.ofDigitChars 10 (whole ++ frac) 0) (10 ^ frac.length) := by
  have htake : (whole ++ '.' :: frac).takeWhile (· ≠ '.') = whole := by
    rw [List.takeWhile_append_of_pos fun c hc => digit_ne_point (hw c hc), List.takeWhile_cons_of_neg (by decide),
      List.append_nil]
  have hdrop : ((whole ++ '.' :: frac).dropWhile (· ≠ '.')).tail = frac := by
    rw [List.dropWhile_append_of_pos fun c hc => digit_ne_point (hw c hc), List.dropWhile_cons_of_neg (by decide), List.tail_cons]
  have hall : (whole ++ frac).all Char.isDigit = true := by
    rw [List.all_eq_true]
    intro c hc
    rcases List.mem_append.mp hc with hc | hc
    · exact hw c hc
    · exact hf c hc
  rw [parseFinite]
  simp only [htake, hdrop, hall, hne, Bool.true_eq_false, or_self, if_false]

theorem parseFinite_whole {negative : Bool} {cs : List Char} (hne : cs ≠ []) (h : ∀ c ∈ cs, c.isDigit = true) :
    parseFinite negative cs = F64.ratio negative (Nat.ofDigitChars 10 cs 0) 1 := by
  have htake : cs.takeWhile (· ≠ '.') = cs := List.takeWhile_eq_self_iff.mpr fun c hc => digit_ne_point (h c hc)
  have hdrop : cs.dropWhile (· ≠ '.') = [] := List.dropWhile_eq_nil_iff.mpr fun c hc => digit_ne_point (h c hc)
  have hall : cs.all Char.isDigit = true := List.all_eq_true.mpr h
  rw [parseFinite]
  simp only [htake, hdrop, List.tail_nil, List.append_nil, hall, hne, Bool.true_eq_false, or_self, if_false,
    List.length_nil, pow_zero]

end Double

/-- The text of a finite double as Rust displays it: digits with a sign and a point, of which the double is the nearest. -/
class Display where
  text : F64 → List Char
  plain : ∀ f, ∀ c ∈ text f, c.isDigit = true ∨ c = '-' ∨ c = '.'
  reads : ∀ f, Double.parse (text f) = some (.finite f)

namespace Display

/-- All the digits a double has. -/
def allDigits (f : F64) : List Char :=
  let n := f.units.natAbs * 5 ^ 1074
  (if f.negative then ['-'] else []) ++ (Nat.toDigits 10 (n / 10 ^ 1074) ++ '.' :: Time.padded 1074 (n % 10 ^ 1074))

theorem parse_places {k : Nat} (hk : 0 < k) (negative : Bool) (n : Nat) :
    Double.parse ((if negative then ['-'] else []) ++ (Nat.toDigits 10 (n / 10 ^ k) ++ '.' :: Time.padded k (n % 10 ^ k))) =
      (F64.ratio negative n (10 ^ k)).map .finite := by
  have hdigits {n : Nat} : ∀ c ∈ Nat.toDigits 10 n, c.isDigit = true := fun c hc =>
    Nat.isDigit_of_mem_toDigits (by decide) (by decide) hc
  have hpadded {n : Nat} : ∀ c ∈ Time.padded k n, c.isDigit = true := fun c hc => Time.isDigit_of_mem_padded hc
  have hne {n : Nat} : Nat.toDigits 10 n ≠ [] := Nat.toDigits_ne_nil
  have hlen : (Time.padded k (n % 10 ^ k)).length = k :=
    Time.length_padded_of_lt hk (Nat.mod_lt _ (Nat.pow_pos (by decide)))
  have hnumber : Nat.ofDigitChars 10 (Nat.toDigits 10 (n / 10 ^ k) ++ Time.padded k (n % 10 ^ k)) 0 = n := by
    rw [Nat.ofDigitChars_append, Nat.ofDigitChars_ten_toDigits, Nat.ofDigitChars_eq_ofDigitChars_zero,
      Time.ofDigitChars_padded, hlen]
    exact Nat.div_add_mod n (10 ^ k)
  rw [Double.parse_digits (by simp), Double.parseFinite_eq hne hdigits hpadded, hnumber, hlen]
  · intro c hc
    rcases List.mem_append.mp hc with hc | hc
    · exact .inl (hdigits c hc)
    · rcases List.mem_cons.mp hc with rfl | hc
      · exact .inr rfl
      · exact .inl (hpadded c hc)

theorem parse_allDigits (f : F64) : Double.parse (allDigits f) = some (.finite f) := by
  have hten (u k : Nat) : u * 5 ^ k * 2 ^ k = 10 ^ k * u := by
    rw [Nat.mul_assoc, ← Nat.mul_pow, Nat.mul_comm]
  rw [allDigits, parse_places (by decide), F64.ratio_eq (Nat.pow_pos (by decide)) (hten f.units.natAbs 1074)]
  rfl

theorem plain_allDigits (f : F64) : ∀ c ∈ allDigits f, c.isDigit = true ∨ c = '-' ∨ c = '.' := by
  intro c hc
  rcases List.mem_append.mp hc with hc | hc
  · split at hc
    · exact .inr (.inl (List.mem_singleton.mp hc))
    · exact nomatch hc
  rcases List.mem_append.mp hc with hc | hc
  · exact .inl (Nat.isDigit_of_mem_toDigits (by decide) (by decide) hc)
  · rcases List.mem_cons.mp hc with rfl | hc
    · exact .inr (.inr rfl)
    · exact .inl (Time.isDigit_of_mem_padded hc)

/-- A display that leaves no digit out. -/
@[reducible] def exactly : Display := ⟨allDigits, plain_allDigits, parse_allDigits⟩

end Display

namespace Double

variable [Display]

/-- Formats an arithmetic result: integers print without a fractional part. -/
def fmtF64 : Double → List Char
  | finite f =>
      if f.isWhole = true ∧ f.units.natAbs < 9 * 10 ^ 15 * 2 ^ 1074 then intText (f.units / 2 ^ 1074) else Display.text f
  | infinite negative => (if negative then ['-'] else []) ++ ['i', 'n', 'f']
  | nan => ['N', 'a', 'N']

/-- A double whose zero has no sign. -/
def unsigned : Double → Double
  | finite f => if f.units = 0 then .finite ⟨false, 0, 0⟩ else .finite f
  | d => d

omit [Display] in
theorem parse_intText (i : Int) : parse (intText i) = (F64.ratio (i < 0) i.natAbs 1).map .finite := by
  have hdigits : ∀ c ∈ Nat.toDigits 10 i.natAbs, c.isDigit = true := fun c hc =>
    Nat.isDigit_of_mem_toDigits (by decide) (by decide) hc
  have h := parse_digits Nat.toDigits_ne_nil (fun c hc => Or.inl (hdigits c hc)) (decide (i < 0))
  rw [parseFinite_whole Nat.toDigits_ne_nil hdigits, Nat.ofDigitChars_ten_toDigits] at h
  rw [intText, ← h]
  by_cases hneg : i < 0
  · simp only [hneg, decide_true, if_true]
  · simp only [hneg, decide_false, if_false, Bool.false_eq_true]

omit [Display] in
theorem negative_of_units {f : F64} (h : f.units ≠ 0) : f.negative = decide (f.units < 0) := by
  have hunits := F64.units_eq f
  have hpos : 0 < f.units.natAbs := Int.natAbs_pos.mpr h
  cases hneg : f.negative with
  | true =>
      rw [hneg, if_pos rfl] at hunits
      rw [eq_comm, decide_eq_true_eq]
      omega
  | false =>
      rw [hneg, if_neg (by decide)] at hunits
      rw [eq_comm, decide_eq_false_iff_not]
      omega

omit [Display] in
theorem ratio_whole {f : F64} {i : Int} (h : f.units = i * 2 ^ 1074) (negative : Bool) :
    F64.ratio negative i.natAbs 1 = some ⟨negative, f.exponent, f.fraction⟩ := by
  apply F64.ratio_eq Nat.one_pos
  rw [Nat.one_mul, h, Int.natAbs_mul, Int.natAbs_pow]
  rfl

/-- What is printed is read back, but for the sign of a zero. -/
theorem parse_fmtF64 (f : F64) : parse (fmtF64 (.finite f)) = some (unsigned (.finite f)) := by
  by_cases hzero : f.units = 0
  · have hcond : f.isWhole = true ∧ f.units.natAbs < 9 * 10 ^ 15 * 2 ^ 1074 := by
      refine ⟨?_, ?_⟩
      · rw [F64.isWhole, hzero, Int.zero_emod]
        rfl
      · rw [hzero]
        exact Nat.mul_pos (by decide) (Nat.pow_pos (by decide))
    have hunits : F64.units ⟨false, 0, 0⟩ = 0 := by decide
    have hratio := ratio_whole (hunits.trans (Int.zero_mul _).symm) false
    rw [fmtF64, unsigned, if_pos hcond, if_pos hzero, parse_intText, hzero, Int.zero_ediv]
    exact congrArg (Option.map finite) hratio
  rw [fmtF64, unsigned, if_neg hzero]
  split
  · next h =>
    have hdvd := Int.dvd_of_emod_eq_zero (of_decide_eq_true h.1)
    have hback := (Int.ediv_mul_cancel hdvd).symm
    have hsign : decide (f.units / 2 ^ 1074 < 0) = f.negative := by
      rw [negative_of_units hzero, decide_eq_decide]
      have hpos : (0 : Int) < 2 ^ 1074 := by positivity
      refine ⟨fun hlt => ?_, fun hlt => Int.ediv_neg_of_neg_of_pos hlt hpos⟩
      by_contra hge
      exact absurd (Int.ediv_nonneg (not_lt.mp hge) hpos.le) (not_le.mpr hlt)
    rw [parse_intText, ratio_whole hback, hsign]
    rfl
  · exact Display.reads f

end Double

end KivaDb
