import KivaDb.Config
import KivaDb.Lib.JsonText
import KivaDb.Lib.Utf8

namespace KivaDb

open Lib.LittleEndian Lib.Utf8 Lib.JsonText

namespace Num

/-- Where the string ends that `i` is in; `none` where the code would end in a panic, or not at all. -/
def stringEnd (text : Bytes) : Nat → Nat → Option Nat
  | 0, _ => none
  | fuel + 1, i =>
      if i < text.length then
        match text[i]? with
        | none => none
        | some b => if b = quote then some i else stringEnd text fuel (i + if b = backslash then 2 else 1)
      else some i

/-- What a number goes on with: a digit, or one of `.eE+-`. -/
def inNumber (b : UInt8) : Bool := isDigit b || [0x2e, 0x65, 0x45, 0x2b, 0x2d].contains b

def numberEnd (text : Bytes) : Nat → Nat → Option Nat
  | 0, _ => none
  | fuel + 1, i =>
      if i < text.length then
        match text[i]? with
        | none => none
        | some b => if inNumber b then numberEnd text fuel (i + 1) else some i
      else some i

/-- `text[i..j]`. -/
def part (text : Bytes) (i j : Nat) : Option Bytes := if i ≤ j ∧ j ≤ text.length then some (slice text i (j - i)) else none

/-- An integer that no 64 bits hold. -/
def beyond (token : String) : Bool :=
  !(token.toList.any fun c => ['.', 'e', 'E'].contains c) && (JsonPath.parseI64 token.toList).isNone &&
    (Config.readU64 token.toList).isNone && token ≠ "-"

def beyondMessage (token : String) : String :=
  let quoted := "\"" ++ token ++ "\""
  s!"the integer {token} is beyond the 64-bit integers (-9223372036854775808 to 18446744073709551615) and would be " ++
    s!"rounded: write it as a text ({quoted}), or with a fraction (.0) to store it as a rounded float"

def checkFrom (text : Bytes) : Nat → Nat → Option (Except String Unit)
  | 0, _ => none
  | fuel + 1, i =>
      if i < text.length then
        match text[i]? with
        | none => none
        | some b =>
            if b = quote then (stringEnd text (text.length + 1) (i + 1)).bind fun j => checkFrom text fuel (j + 1)
            else if b = 0x2d ∨ isDigit b then
              (numberEnd text (text.length + 1) (i + 1)).bind fun j =>
                (part text i j).bind fun token =>
                  let token := (fromUtf8 token).getD ""
                  if beyond token then some (.error (beyondMessage token)) else checkFrom text fuel j
            else checkFrom text fuel (i + 1)
      else some (.ok ())

/-- Refuses a JSON text with an integer beyond the 64-bit integers. -/
def checkIntegers (text : Bytes) : Option (Except String Unit) := checkFrom text (text.length + 1) 0

section

variable {text : Bytes}

theorem stringEnd_some (text : Bytes) {fuel i : Nat} (hpos : 0 < fuel) (h : text.length < fuel + i) :
    ∃ j, stringEnd text fuel i = some j ∧ i ≤ j := by
  induction fuel generalizing i with
  | zero => exact absurd hpos (Nat.lt_irrefl 0)
  | succ fuel ih =>
      rw [stringEnd]
      by_cases hi : i < text.length
      · rw [if_pos hi, List.getElem?_eq_getElem hi]
        dsimp only
        by_cases hquote : text[i] = quote
        · exact ⟨i, if_pos hquote, le_rfl⟩
        · have hstep : i < i + if text[i] = backslash then 2 else 1 := by split <;> omega
          obtain ⟨j, hj, hle⟩ := ih (i := i + if text[i] = backslash then 2 else 1) (by omega) (by omega)
          exact ⟨j, (if_neg hquote).trans hj, by omega⟩
      · exact ⟨i, if_neg hi, le_rfl⟩

theorem numberEnd_some (text : Bytes) {fuel i : Nat} (hpos : 0 < fuel) (h : text.length < fuel + i) (hi : i ≤ text.length) :
    ∃ j, numberEnd text fuel i = some j ∧ i ≤ j ∧ j ≤ text.length := by
  induction fuel generalizing i with
  | zero => exact absurd hpos (Nat.lt_irrefl 0)
  | succ fuel ih =>
      rw [numberEnd]
      by_cases hlt : i < text.length
      · rw [if_pos hlt, List.getElem?_eq_getElem hlt]
        dsimp only
        by_cases hnumber : inNumber text[i] = true
        · obtain ⟨j, hj, hle, hend⟩ := ih (i := i + 1) (by omega) (by omega) hlt
          exact ⟨j, (if_pos hnumber).trans hj, by omega, hend⟩
        · exact ⟨i, if_neg hnumber, le_rfl, hi⟩
      · exact ⟨i, if_neg hlt, le_rfl, hi⟩

theorem part_some {i j : Nat} (hij : i ≤ j) (hj : j ≤ text.length) : part text i j = some (slice text i (j - i)) :=
  if_pos ⟨hij, hj⟩

theorem checkFrom_some {fuel i : Nat} (hpos : 0 < fuel) (h : text.length < fuel + i) : ∃ r, checkFrom text fuel i = some r := by
  induction fuel generalizing i with
  | zero => exact absurd hpos (Nat.lt_irrefl 0)
  | succ fuel ih =>
      rw [checkFrom]
      by_cases hi : i < text.length
      · rw [if_pos hi, List.getElem?_eq_getElem hi]
        dsimp only
        by_cases hquote : text[i] = quote
        · obtain ⟨j, hj, hle⟩ := stringEnd_some text (i := i + 1) (Nat.succ_pos text.length) (by omega)
          rw [if_pos hquote, hj, Option.bind_some]
          exact ih (by omega) (by omega)
        · rw [if_neg hquote]
          by_cases hnumber : text[i] = 0x2d ∨ isDigit text[i] = true
          · obtain ⟨j, hj, hle, hend⟩ := numberEnd_some text (i := i + 1) (Nat.succ_pos text.length) (by omega) hi
            rw [if_pos hnumber, hj, Option.bind_some, part_some (by omega) hend, Option.bind_some]
            split
            · exact ⟨_, rfl⟩
            · exact ih (by omega) (by omega)
          · rw [if_neg hnumber]
            exact ih (by omega) (by omega)
      · exact ⟨_, if_neg hi⟩

end

section

variable {text : Bytes} {i fuel : Nat}

theorem at_drop {b : UInt8} {rest : Bytes} (h : text.drop i = b :: rest) :
    i < text.length ∧ text[i]? = some b ∧ text.drop (i + 1) = rest := by
  have hlen := congrArg List.length h
  rw [List.length_drop, List.length_cons] at hlen
  have hlt : i < text.length := by omega
  refine ⟨hlt, ?_, ?_⟩
  · rw [← Nat.add_zero i, ← List.getElem?_drop, h]
    rfl
  · rw [← List.drop_drop, h]
    rfl

theorem drop_append {l rest : Bytes} (h : text.drop i = l ++ rest) : text.drop (i + l.length) = rest := by
  rw [← List.drop_drop, h, List.drop_left' rfl]

theorem length_of_drop {l rest : Bytes} (h : text.drop i = l ++ rest) (hl : l ≠ []) : i + l.length ≤ text.length := by
  have hlen := congrArg List.length h
  have hpos := List.length_pos_iff.mpr hl
  rw [List.length_drop, List.length_append] at hlen
  omega

theorem stringEnd_step {b : UInt8} {rest : Bytes} (h : text.drop i = b :: rest) (hb : b ≠ quote)
    (hfuel : text.length < fuel + i) : ∃ fuel', fuel = fuel' + 1 ∧
      stringEnd text fuel i = stringEnd text fuel' (i + if b = backslash then 2 else 1) := by
  obtain ⟨hlt, hat, -⟩ := at_drop h
  obtain ⟨fuel', rfl⟩ : ∃ k, fuel = k + 1 := ⟨fuel - 1, by omega⟩
  refine ⟨fuel', rfl, ?_⟩
  rw [stringEnd, if_pos hlt, hat]
  exact if_neg hb

/-- Bytes of a string that stand for themselves. -/
theorem stringEnd_plain {l rest : Bytes} (hl : ∀ b ∈ l, b ≠ quote ∧ b ≠ backslash) (h : text.drop i = l ++ rest)
    (hfuel : text.length < fuel + i) :
    ∃ fuel', text.length < fuel' + (i + l.length) ∧ stringEnd text fuel i = stringEnd text fuel' (i + l.length) := by
  induction l generalizing i fuel with
  | nil => exact ⟨fuel, hfuel, rfl⟩
  | cons b l ih =>
      obtain ⟨⟨hquote, hback⟩, hl⟩ := List.forall_mem_cons.mp hl
      obtain ⟨fuel₁, rfl, hstep⟩ := stringEnd_step h hquote hfuel
      rw [if_neg hback] at hstep
      obtain ⟨fuel₂, hfuel₂, hrest⟩ := ih hl (at_drop h).2.2 (by omega : text.length < fuel₁ + (i + 1))
      refine ⟨fuel₂, ?_, ?_⟩
      · rw [List.length_cons]
        omega
      · rw [hstep, hrest, List.length_cons, Nat.add_assoc, Nat.add_comm 1]

theorem stringEnd_escape {b : UInt8} {rest : Bytes} (h : text.drop i = backslash :: b :: rest) (hfuel : text.length < fuel + i) :
    ∃ fuel', text.length < fuel' + (i + 2) ∧ stringEnd text fuel i = stringEnd text fuel' (i + 2) := by
  obtain ⟨fuel', rfl, hstep⟩ := stringEnd_step h (by decide) hfuel
  exact ⟨fuel', by omega, hstep⟩

theorem plain_of_isHex {b : UInt8} (h : isHex b = true) : b ≠ quote ∧ b ≠ backslash := by
  constructor <;> (rintro rfl; exact absurd h (by decide))

theorem stringEnd_piece (p : Piece) {rest : Bytes} (h : text.drop i = p.text ++ rest) (hfuel : text.length < fuel + i) :
    ∃ fuel', text.length < fuel' + (i + p.text.length) ∧ stringEnd text fuel i = stringEnd text fuel' (i + p.text.length) := by
  cases p with
  | plain b _ hquote hback => exact stringEnd_plain (by simpa [Piece.text] using ⟨hquote, hback⟩) h hfuel
  | escaped b hb => exact stringEnd_escape h hfuel
  | unicode a b c d hex =>
      obtain ⟨fuel₁, hfuel₁, hstep⟩ := stringEnd_escape h hfuel
      obtain ⟨ha, hb, hc, hd⟩ := hex
      have hplain : ∀ x ∈ [a, b, c, d], x ≠ quote ∧ x ≠ backslash := by
        intro x hx
        rcases hx with _ | ⟨_, _ | ⟨_, _ | ⟨_, _ | ⟨_, hx⟩⟩⟩⟩
        · exact plain_of_isHex ha
        · exact plain_of_isHex hb
        · exact plain_of_isHex hc
        · exact plain_of_isHex hd
        · exact nomatch hx
      have hdrop : text.drop (i + 2) = [a, b, c, d] ++ rest := (at_drop (at_drop h).2.2).2.2
      obtain ⟨fuel₂, hfuel₂, hrest⟩ := stringEnd_plain hplain hdrop hfuel₁
      exact ⟨fuel₂, hfuel₂, hstep.trans hrest⟩

/-- A string ends at the quote that closes it. -/
theorem stringEnd_pieces {ps : List Piece} {rest : Bytes} (h : text.drop i = ps.flatMap Piece.text ++ quote :: rest)
    (hfuel : text.length < fuel + i) : stringEnd text fuel i = some (i + (ps.flatMap Piece.text).length) := by
  induction ps generalizing i fuel with
  | nil =>
      obtain ⟨hlt, hat, -⟩ := at_drop h
      obtain ⟨fuel', rfl⟩ : ∃ k, fuel = k + 1 := ⟨fuel - 1, by omega⟩
      rw [stringEnd, if_pos hlt, hat]
      exact if_pos rfl
  | cons p ps ih =>
      rw [List.flatMap_cons, List.append_assoc] at h
      obtain ⟨fuel', hfuel', hstep⟩ := stringEnd_piece p h hfuel
      rw [hstep, ih (drop_append h) hfuel', List.flatMap_cons, List.length_append, Nat.add_assoc]

/-- A number ends where something else begins. -/
theorem numberEnd_token {l rest : Bytes} (hl : ∀ b ∈ l, inNumber b = true) (hrest : ∀ b ∈ rest.head?, inNumber b = false)
    (h : text.drop i = l ++ rest) (hle : i ≤ text.length) (hfuel : text.length < fuel + i) :
    numberEnd text fuel i = some (i + l.length) := by
  obtain ⟨fuel, rfl⟩ : ∃ k, fuel = k + 1 := ⟨fuel - 1, by omega⟩
  induction l generalizing i fuel with
  | nil =>
      rw [numberEnd]
      cases rest with
      | nil =>
          have hend := List.drop_eq_nil_iff.mp h
          rw [if_neg (by omega)]
          rfl
      | cons b rest =>
          obtain ⟨hlt, hat, -⟩ := at_drop h
          rw [if_pos hlt, hat]
          exact if_neg (by rw [hrest b rfl]; decide)
  | cons b l ih =>
      obtain ⟨hb, hl⟩ := List.forall_mem_cons.mp hl
      obtain ⟨hlt, hat, hdrop⟩ := at_drop h
      obtain ⟨fuel, rfl⟩ : ∃ k, fuel = k + 1 := ⟨fuel - 1, by omega⟩
      rw [numberEnd, if_pos hlt, hat]
      dsimp only
      rw [if_pos hb, ih hl hdrop hlt fuel (by omega), List.length_cons, Nat.add_assoc, Nat.add_comm 1]

end

theorem asciiChar_digit {b : UInt8} (h : isDigit b = true) : (asciiChar b).isDigit = true ∧ (asciiChar b).toNat = b.toNat := by
  have hall : ∀ n < 256, isDigit (UInt8.ofNat n) = true → (Char.ofNat n).isDigit = true ∧ (Char.ofNat n).toNat = n := by
    decide +kernel
  exact hall b.toNat b.toNat_lt (by rwa [UInt8.ofNat_toNat])

theorem digit_lt {b : UInt8} (h : isDigit b = true) : b < 128 := by
  have hall : ∀ n < 256, isDigit (UInt8.ofNat n) = true → n < 128 := by decide +kernel
  exact UInt8.lt_iff_toNat_lt.mpr (hall b.toNat b.toNat_lt (by rwa [UInt8.ofNat_toNat]))

theorem foldl_asciiChar {ds : Bytes} (h : ∀ b ∈ ds, isDigit b = true) :
    (ds.map asciiChar).foldl (fun n c => n * 10 + (c.toNat - 48)) 0 = digitsOf ds := by
  have hfrom (k : Nat) : (ds.map asciiChar).foldl (fun n c => n * 10 + (c.toNat - 48)) k =
      ds.foldl (fun n b => n * 10 + (b.toNat - 48)) k := by
    induction ds generalizing k with
    | nil => rfl
    | cons b ds ih =>
        obtain ⟨hb, h⟩ := List.forall_mem_cons.mp h
        rw [List.map_cons, List.foldl_cons, List.foldl_cons, ih h, (asciiChar_digit hb).2]
  exact hfrom 0

theorem all_asciiChar {ds : Bytes} (h : ∀ b ∈ ds, isDigit b = true) : (ds.map asciiChar).all Char.isDigit = true := by
  rw [List.all_eq_true]
  intro c hc
  obtain ⟨b, hb, rfl⟩ := List.mem_map.mp hc
  exact (asciiChar_digit (h b hb)).1

/-- The characters of a number. -/
def numeralChars (n : Numeral) : List Char := n.text.map asciiChar

theorem head_of_digits {cs : List Char} (h : cs.all Char.isDigit = true) : cs.head? ≠ some '+' ∧ cs.head? ≠ some '-' := by
  cases cs with
  | nil => exact ⟨nofun, nofun⟩
  | cons c cs =>
      have hc := List.all_eq_true.mp h c List.mem_cons_self
      constructor <;> (intro heq; rw [Option.some.inj heq] at hc; exact absurd hc (by decide))

theorem parseI64_digits {cs : List Char} (hne : cs ≠ []) (h : cs.all Char.isDigit = true) : JsonPath.parseI64 cs = none ↔
    2 ^ 63 ≤ cs.foldl (fun n c => n * 10 + (c.toNat - 48)) 0 := by
  obtain ⟨hplus, hminus⟩ := head_of_digits h
  unfold JsonPath.parseI64
  split
  · exact absurd rfl hplus
  · exact absurd rfl hminus
  · dsimp only
    rw [if_pos ⟨hne, h⟩, ite_eq_right_iff]
    constructor
    · intro hnone
      by_contra hlt
      exact nomatch hnone ⟨by omega, by omega⟩
    · intro hle hin
      omega

theorem parseI64_minus {cs : List Char} (hne : cs ≠ []) (h : cs.all Char.isDigit = true) : JsonPath.parseI64 ('-' :: cs) = none ↔
    2 ^ 63 < cs.foldl (fun n c => n * 10 + (c.toNat - 48)) 0 := by
  have hread : JsonPath.parseI64 ('-' :: cs) = if cs ≠ [] ∧ cs.all Char.isDigit then
      let n := -1 * ((cs.foldl (fun n c => n * 10 + (c.toNat - 48)) 0 : Nat) : Int)
      if -(2 ^ 63) ≤ n ∧ n < 2 ^ 63 then some n else none else none := rfl
  rw [hread, if_pos ⟨hne, h⟩, ite_eq_right_iff]
  constructor
  · intro hnone
    by_contra hlt
    exact nomatch hnone ⟨by omega, by omega⟩
  · intro hle hin
    omega

theorem digitsValue_eq (cs : List Char) : Time.digitsValue cs = cs.foldl (fun n c => n * 10 + (c.toNat - 48)) 0 := rfl

theorem readU64_of_head {cs : List Char} (h : cs.head? ≠ some '+') : Config.readU64 cs =
    if cs ≠ [] ∧ cs.all Char.isDigit ∧ Time.digitsValue cs < 2 ^ 64 then some (Time.digitsValue cs) else none := by
  cases cs with
  | nil => rfl
  | cons c cs =>
      have hc : c ≠ '+' := fun heq => h (congrArg some heq)
      simp [Config.readU64, hc]

theorem readU64_toDigits {n : Nat} (h : n < 2 ^ 64) : Config.readU64 (Nat.toDigits 10 n) = some n := by
  have hdigit {c : Char} (hc : c ∈ Nat.toDigits 10 n) : c.isDigit = true :=
    Nat.isDigit_of_mem_toDigits (by decide) (by decide) hc
  have hhead : (Nat.toDigits 10 n).head? ≠ some '+' := by
    intro hplus
    exact absurd (hdigit (List.mem_of_mem_head? hplus)) (by decide)
  have hvalue : Time.digitsValue (Nat.toDigits 10 n) = n := by
    have hvalue := Nat.ofDigitChars_ten_toDigits (n := n)
    rw [Nat.ofDigitChars_eq_foldl] at hvalue
    simp only [Nat.mul_comm 10] at hvalue
    exact hvalue
  rw [readU64_of_head hhead, hvalue, if_pos ⟨Nat.toDigits_ne_nil, List.all_eq_true.mpr fun c hc => hdigit hc, h⟩]

theorem readU64_digits {cs : List Char} (hne : cs ≠ []) (h : cs.all Char.isDigit = true) : Config.readU64 cs = none ↔
    2 ^ 64 ≤ cs.foldl (fun n c => n * 10 + (c.toNat - 48)) 0 := by
  rw [readU64_of_head (head_of_digits h).1, digitsValue_eq, ite_eq_right_iff]
  constructor
  · intro hnone
    by_contra hlt
    exact nomatch hnone ⟨hne, h, by omega⟩
  · intro hle hin
    omega

theorem readU64_minus (cs : List Char) : Config.readU64 ('-' :: cs) = none := by
  rw [readU64_of_head (by simp), if_neg]
  intro h
  exact absurd (List.all_eq_true.mp h.2.1 '-' List.mem_cons_self) (by decide)

theorem parse_integer {n : Numeral} (h : n.IsInteger) :
    (JsonPath.parseI64 (numeralChars n) = none ∧ Config.readU64 (numeralChars n) = none) ↔
      n.integer < -2 ^ 63 ∨ 2 ^ 64 - 1 < n.integer := by
  have hne : n.whole.map asciiChar ≠ [] := by simp [n.whole_ne]
  have hdigits := all_asciiChar n.whole_digits
  have hvalue := foldl_asciiChar n.whole_digits
  have htext : numeralChars n = n.sign.map asciiChar ++ n.whole.map asciiChar := by
    rw [numeralChars, Numeral.text, Numeral.fractionText, Numeral.exponentText, h.1, h.2]
    simp
  rw [htext, Numeral.sign, Numeral.integer]
  by_cases hneg : n.negative = true
  · have hminus : [(0x2d : UInt8)].map asciiChar ++ n.whole.map asciiChar = '-' :: n.whole.map asciiChar := rfl
    rw [if_pos hneg, if_pos hneg, hminus, parseI64_minus hne hdigits, readU64_minus, hvalue, and_iff_left rfl]
    omega
  · rw [if_neg hneg, if_neg hneg, List.map_nil, List.nil_append, parseI64_digits hne hdigits, readU64_digits hne hdigits, hvalue]
    omega

theorem mem_sign {n : Numeral} {b : UInt8} (h : b ∈ n.sign) : b = 0x2d := by
  unfold Numeral.sign at h
  split at h
  · exact List.mem_singleton.mp h
  · exact nomatch h

theorem mem_fractionText {n : Numeral} {b : UInt8} (h : b ∈ n.fractionText) : b = 0x2e ∨ isDigit b = true := by
  unfold Numeral.fractionText at h
  rcases hf : n.fraction with _ | f
  · rw [hf] at h
    exact nomatch h
  · rw [hf] at h
    rcases List.mem_cons.mp h with rfl | h
    · exact .inl rfl
    · exact .inr ((n.fraction_digits f hf).2 b h)

theorem mem_exponentText {n : Numeral} {b : UInt8} (h : b ∈ n.exponentText) :
    b = 0x65 ∨ b = 0x45 ∨ b = 0x2b ∨ b = 0x2d ∨ isDigit b = true := by
  unfold Numeral.exponentText at h
  rcases he : n.exponent with _ | e
  · rw [he] at h
    exact nomatch h
  · rw [he] at h
    obtain ⟨hletter, hsign, -, hdigits⟩ := n.exponent_digits e he
    rcases List.mem_cons.mp h with rfl | h
    · exact hletter.imp_right .inl
    · rcases List.mem_append.mp h with h | h
      · exact .inr (.inr ((hsign b (Option.mem_toList.mp h)).imp_right .inl))
      · exact .inr (.inr (.inr (.inr (hdigits b h))))

theorem inNumber_of_digit {b : UInt8} (h : isDigit b = true) : inNumber b = true := by
  rw [inNumber, h]
  rfl

theorem inNumber_text {n : Numeral} {b : UInt8} (h : b ∈ n.text) : inNumber b = true := by
  rw [Numeral.text, List.mem_append, List.mem_append, List.mem_append] at h
  rcases h with ((h | h) | h) | h
  · rw [mem_sign h]
    decide
  · exact inNumber_of_digit (n.whole_digits b h)
  · rcases mem_fractionText h with rfl | h
    · decide
    · exact inNumber_of_digit h
  · rcases mem_exponentText h with rfl | rfl | rfl | rfl | h
    · decide
    · decide
    · decide
    · decide
    · exact inNumber_of_digit h

theorem ascii_of_inNumber {b : UInt8} (h : inNumber b = true) : b < 128 := by
  rw [inNumber, Bool.or_eq_true] at h
  rcases h with h | h
  · exact digit_lt h
  · have hall : ∀ b ∈ ([0x2e, 0x65, 0x45, 0x2b, 0x2d] : Bytes), b < 128 := by simp
    exact hall b (List.contains_iff_mem.mp h)

theorem dark_of_digit {b : UInt8} (h : isDigit b = true ∨ b = 0x2d) : ['.', 'e', 'E'].contains (asciiChar b) = false := by
  have hall : ∀ n < 256, isDigit (UInt8.ofNat n) = true ∨ UInt8.ofNat n = 0x2d →
      ['.', 'e', 'E'].contains (Char.ofNat n) = false := by decide +kernel
  exact hall b.toNat b.toNat_lt (by rwa [UInt8.ofNat_toNat])

/-- An integer is written without `.`, `e` and `E`. -/
theorem isInteger_iff {n : Numeral} :
    n.IsInteger ↔ ((numeralChars n).any fun c => ['.', 'e', 'E'].contains c) = false := by
  constructor
  · intro h
    rw [List.any_eq_false]
    intro c hc
    obtain ⟨b, hb, rfl⟩ := List.mem_map.mp hc
    rw [Numeral.text, Numeral.fractionText, Numeral.exponentText, h.1, h.2, Option.elim_none, Option.elim_none, List.append_nil,
      List.append_nil, List.mem_append] at hb
    rw [dark_of_digit (hb.symm.imp (n.whole_digits b) mem_sign)]
    decide
  · intro h
    rw [List.any_eq_false] at h
    have hmem {b : UInt8} (hb : b ∈ n.text) : ['.', 'e', 'E'].contains (asciiChar b) ≠ true := h _ (List.mem_map_of_mem hb)
    constructor
    · rcases hf : n.fraction with _ | f
      · rfl
      · have hdot : (0x2e : UInt8) ∈ n.text := by
          rw [Numeral.text, Numeral.fractionText, hf]
          simp
        exact absurd (by decide) (hmem hdot)
    · rcases he : n.exponent with _ | e
      · rfl
      · have hletter : e.1 ∈ n.text := by
          rw [Numeral.text, Numeral.exponentText, he]
          simp
        rcases (n.exponent_digits e he).1 with hl | hl
        · rw [hl] at hletter
          exact absurd (by decide) (hmem hletter)
        · rw [hl] at hletter
          exact absurd (by decide) (hmem hletter)

theorem beyond_numeral (n : Numeral) : beyond (String.ofList (numeralChars n)) = true ↔
    n.IsInteger ∧ (n.integer < -2 ^ 63 ∨ 2 ^ 64 - 1 < n.integer) := by
  have hminus : String.ofList (numeralChars n) ≠ "-" := by
    intro h
    have hchars : numeralChars n = ['-'] := by
      rw [← String.toList_ofList (l := numeralChars n), h]
      rfl
    obtain ⟨b, ds, hwhole⟩ := List.exists_cons_of_ne_nil n.whole_ne
    have hb : isDigit b = true := n.whole_digits b (hwhole ▸ List.mem_cons_self)
    have hmem : asciiChar b ∈ numeralChars n := List.mem_map_of_mem (by rw [Numeral.text, hwhole]; simp)
    rw [hchars, List.mem_singleton] at hmem
    have hdigit := (asciiChar_digit hb).1
    rw [hmem] at hdigit
    exact absurd hdigit (by decide)
  rw [beyond, String.toList_ofList]
  by_cases hint : n.IsInteger
  · rw [isInteger_iff.mp hint, ← parse_integer hint]
    simp [hminus, hint, Option.isNone_iff_eq_none]
  · have hany : ((numeralChars n).any fun c => ['.', 'e', 'E'].contains c) = true := by
      rw [← Bool.not_eq_false]
      exact fun h => hint (isInteger_iff.mpr h)
    rw [hany]
    simp [hint]

section

variable {text : Bytes} {i fuel : Nat}

/-- What is neither a string nor a number is stepped over. -/
theorem checkFrom_quiet {l rest : Bytes} (hl : ∀ b ∈ l, b ≠ quote ∧ ¬ (b = 0x2d ∨ isDigit b = true))
    (h : text.drop i = l ++ rest) (hpos : 0 < fuel) (hfuel : text.length < fuel + i) : ∃ fuel', 0 < fuel' ∧
      text.length < fuel' + (i + l.length) ∧ checkFrom text fuel i = checkFrom text fuel' (i + l.length) := by
  induction l generalizing i fuel with
  | nil => exact ⟨fuel, hpos, hfuel, rfl⟩
  | cons b l ih =>
      obtain ⟨⟨hquote, hnumber⟩, hl⟩ := List.forall_mem_cons.mp hl
      obtain ⟨hlt, hat, hdrop⟩ := at_drop h
      obtain ⟨fuel, rfl⟩ : ∃ k, fuel = k + 1 := ⟨fuel - 1, by omega⟩
      obtain ⟨fuel', hpos', hfuel', hrest⟩ := ih hl hdrop (by omega : 0 < fuel) (by omega)
      refine ⟨fuel', hpos', ?_, ?_⟩
      · rw [List.length_cons]
        omega
      · rw [checkFrom, if_pos hlt, hat]
        dsimp only
        rw [if_neg hquote, if_neg hnumber, hrest, List.length_cons, Nat.add_assoc, Nat.add_comm 1]

theorem checkFrom_string {ps : List Piece} {rest : Bytes} (h : text.drop i = (Lexeme.string ps).text ++ rest)
    (hfuel : text.length < fuel + i) : ∃ fuel', 0 < fuel' ∧ text.length < fuel' + (i + (Lexeme.string ps).text.length) ∧
      checkFrom text fuel i = checkFrom text fuel' (i + (Lexeme.string ps).text.length) := by
  have hcons : text.drop i = quote :: (ps.flatMap Piece.text ++ quote :: rest) := by
    rw [h, Lexeme.text, List.cons_append, List.append_assoc]
    rfl
  obtain ⟨hlt, hat, hdrop⟩ := at_drop hcons
  have hend : stringEnd text (text.length + 1) (i + 1) = _ := stringEnd_pieces hdrop (by omega)
  have hle := length_of_drop h (List.cons_ne_nil _ _)
  have hlen : (Lexeme.string ps).text.length = (ps.flatMap Piece.text).length + 2 := by simp [Lexeme.text]
  obtain ⟨fuel, rfl⟩ : ∃ k, fuel = k + 1 := ⟨fuel - 1, by omega⟩
  refine ⟨fuel, by omega, by omega, ?_⟩
  rw [checkFrom, if_pos hlt, hat]
  dsimp only
  rw [if_pos rfl, hend, Option.bind_some, hlen]
  exact congrArg _ (by omega)

theorem head_numeral (n : Numeral) : ∃ b l, n.text = b :: l ∧ (b = 0x2d ∨ isDigit b = true) := by
  obtain ⟨b, ds, hwhole⟩ := List.exists_cons_of_ne_nil n.whole_ne
  have hb : isDigit b = true := n.whole_digits b (hwhole ▸ List.mem_cons_self)
  rw [Numeral.text, Numeral.sign, hwhole]
  by_cases hneg : n.negative = true
  · rw [if_pos hneg]
    exact ⟨_, _, rfl, .inl rfl⟩
  · rw [if_neg hneg]
    exact ⟨b, _, rfl, .inr hb⟩

theorem checkFrom_number {n : Numeral} {rest : Bytes} (h : text.drop i = n.text ++ rest)
    (hrest : ∀ b ∈ rest.head?, inNumber b = false) (hfuel : text.length < fuel + i) : ∃ fuel', 0 < fuel' ∧
      text.length < fuel' + (i + n.text.length) ∧ checkFrom text fuel i =
        if beyond (String.ofList (numeralChars n)) then some (.error (beyondMessage (String.ofList (numeralChars n))))
        else checkFrom text fuel' (i + n.text.length) := by
  obtain ⟨b, l, htext, hb⟩ := head_numeral n
  have hcons : text.drop i = b :: (l ++ rest) := by
    rw [h, htext]
    rfl
  obtain ⟨hlt, hat, hdrop⟩ := at_drop hcons
  have hnumber : ∀ x ∈ l, inNumber x = true := fun x hx => inNumber_text (htext ▸ List.mem_cons_of_mem _ hx)
  have hend : numberEnd text (text.length + 1) (i + 1) = _ := numberEnd_token hnumber hrest hdrop hlt (by omega)
  have hle := length_of_drop h (htext ▸ List.cons_ne_nil _ _)
  have hlen : n.text.length = l.length + 1 := by rw [htext, List.length_cons]
  have hslice : part text i (i + 1 + l.length) = some n.text := by
    rw [part_some (by omega) (by omega), slice, h, List.take_left' (by omega)]
  have hchars : (fromUtf8 n.text).getD "" = String.ofList (numeralChars n) := by
    rw [fromUtf8_ascii fun x hx => ascii_of_inNumber (inNumber_text hx)]
    rfl
  have hquote : b ≠ quote := by
    rintro rfl
    exact absurd hb (by decide)
  obtain ⟨fuel, rfl⟩ : ∃ k, fuel = k + 1 := ⟨fuel - 1, by omega⟩
  refine ⟨fuel, by omega, by omega, ?_⟩
  rw [checkFrom, if_pos hlt, hat]
  dsimp only
  rw [if_neg hquote, if_pos hb, hend, Option.bind_some, hslice, Option.bind_some, hchars, hlen, Nat.add_assoc, Nat.add_comm 1]

theorem quiet_mark (m : Mark) : m.byte ≠ quote ∧ ¬ (m.byte = 0x2d ∨ isDigit m.byte = true) := by
  cases m <;> decide

theorem quiet_blank (b : Blank) : b.byte ≠ quote ∧ ¬ (b.byte = 0x2d ∨ isDigit b.byte = true) := by
  cases b <;> decide

theorem quiet_word (w : Word) : ∀ b ∈ w.text, b ≠ quote ∧ ¬ (b = 0x2d ∨ isDigit b = true) := by
  have hall : (w.text.all fun b => decide (b ≠ quote ∧ ¬ (b = 0x2d ∨ isDigit b = true))) = true := by
    cases w <;> decide
  exact fun b hb => of_decide_eq_true (List.all_eq_true.mp hall b hb)

/-- Whatever does not hold a number, no number goes on with. -/
theorem head_dark {l : Lexeme} (h : ¬ l.IsNumber) : ∃ b, l.text.head? = some b ∧ inNumber b = false := by
  cases l with
  | mark m => exact ⟨m.byte, rfl, by cases m <;> decide⟩
  | word w => exact ⟨w.text.headD 0, by cases w <;> rfl, by cases w <;> decide⟩
  | number n => exact absurd trivial h
  | string ps => exact ⟨quote, rfl, by decide⟩
  | blank b => exact ⟨b.byte, rfl, by cases b <;> decide⟩

theorem head_apart {n : Numeral} {ls : List Lexeme} (h : (.number n :: ls).IsChain Apart) :
    ∀ b ∈ (textOf ls).head?, inNumber b = false := by
  intro b hb
  cases ls with
  | nil => exact nomatch hb
  | cons l ls =>
      have hl : ¬ l.IsNumber := fun hn => (List.isChain_cons_cons.mp h).1 ⟨trivial, hn⟩
      obtain ⟨c, hc, hdark⟩ := head_dark hl
      rw [textOf, List.flatMap_cons, List.head?_append, hc] at hb
      rw [← Option.some.inj hb]
      exact hdark

/-- An integer that is beyond the 64-bit integers. -/
def Beyond (n : Numeral) : Prop := n.IsInteger ∧ (n.integer < -2 ^ 63 ∨ 2 ^ 64 - 1 < n.integer)

theorem checkFrom_lexemes {ls : List Lexeme} (hapart : ls.IsChain Apart) (h : text.drop i = textOf ls) (hpos : 0 < fuel)
    (hfuel : text.length < fuel + i) :
    (∃ e, checkFrom text fuel i = some (.error e)) ↔ ∃ n, .number n ∈ ls ∧ Beyond n := by
  induction ls generalizing i fuel with
  | nil =>
      have hend := List.drop_eq_nil_iff.mp h
      obtain ⟨fuel, rfl⟩ : ∃ k, fuel = k + 1 := ⟨fuel - 1, by omega⟩
      rw [checkFrom, if_neg (by omega)]
      exact ⟨fun ⟨_, he⟩ => (nomatch he), fun ⟨_, hn, _⟩ => (nomatch hn)⟩
  | cons l ls ih =>
      have hrest := (List.isChain_cons.mp hapart).2
      rw [textOf, List.flatMap_cons] at h
      have hquiet (hl : ¬ l.IsNumber) {fuel' : Nat} (hpos' : 0 < fuel') (hfuel' : text.length < fuel' + (i + l.text.length))
          (heq : checkFrom text fuel i = checkFrom text fuel' (i + l.text.length)) :
          (∃ e, checkFrom text fuel i = some (.error e)) ↔ ∃ n, .number n ∈ l :: ls ∧ Beyond n := by
        rw [heq, ih hrest (drop_append h) hpos' hfuel']
        refine exists_congr fun n => and_congr_left fun _ => ⟨List.mem_cons_of_mem _, fun hmem => ?_⟩
        exact (List.mem_cons.mp hmem).resolve_left fun heq => hl (heq ▸ trivial)
      cases l with
      | mark m =>
          have hm : ∀ b ∈ [m.byte], b ≠ quote ∧ ¬ (b = 0x2d ∨ isDigit b = true) := by simpa using quiet_mark m
          obtain ⟨fuel', hpos', hfuel', heq⟩ := checkFrom_quiet hm h hpos hfuel
          exact hquiet id hpos' hfuel' heq
      | word w =>
          obtain ⟨fuel', hpos', hfuel', heq⟩ := checkFrom_quiet (quiet_word w) h hpos hfuel
          exact hquiet id hpos' hfuel' heq
      | blank b =>
          have hb : ∀ c ∈ [b.byte], c ≠ quote ∧ ¬ (c = 0x2d ∨ isDigit c = true) := by simpa using quiet_blank b
          obtain ⟨fuel', hpos', hfuel', heq⟩ := checkFrom_quiet hb h hpos hfuel
          exact hquiet id hpos' hfuel' heq
      | string ps =>
          obtain ⟨fuel', hpos', hfuel', heq⟩ := checkFrom_string h hfuel
          exact hquiet id hpos' hfuel' heq
      | number n =>
          obtain ⟨fuel', hpos', hfuel', heq⟩ := checkFrom_number h (head_apart hapart) hfuel
          rw [heq]
          by_cases hn : Beyond n
          · rw [if_pos ((beyond_numeral n).mpr hn)]
            exact ⟨fun _ => ⟨n, List.mem_cons_self, hn⟩, fun _ => ⟨_, rfl⟩⟩
          · rw [if_neg fun hb => hn ((beyond_numeral n).mp hb)]
            refine (ih hrest (drop_append h) hpos' hfuel').trans (exists_congr fun m => and_congr_left fun hm => ⟨List.mem_cons_of_mem _, fun hmem => ?_⟩)
            refine (List.mem_cons.mp hmem).resolve_left fun heq => hn ?_
            rwa [← Lexeme.number.inj heq]

end

/-- Every text is read to its end; a JSON text is refused for its integers beyond 64 bits only. -/
theorem checkIntegers_beyond : (∀ text, ∃ r, checkIntegers text = some r) ∧ ∀ ls, IsText ls →
    ((∃ e, checkIntegers (textOf ls) = some (.error e)) ↔
      ∃ n, .number n ∈ ls ∧ n.IsInteger ∧ (n.integer < -2 ^ 63 ∨ 2 ^ 64 - 1 < n.integer)) := by
  constructor
  · exact fun text => checkFrom_some (Nat.succ_pos _) (by omega)
  · exact fun ls h => checkFrom_lexemes h.apart rfl (Nat.succ_pos _) (by omega)

/-- 2 to the 64. -/
def tooLarge : Numeral where
  negative := false
  whole := asBytes "18446744073709551616"
  fraction := none
  exponent := none
  whole_ne := by decide
  whole_digits := List.all_eq_true.mp (by decide)
  no_zero := by decide
  fraction_digits := nofun
  exponent_digits := nofun

/-- `["1", 18446744073709551616]`. -/
def tooLargeText : List Lexeme :=
  [.mark .openArray, .string [.plain 0x31 (by decide) (by decide) (by decide)], .mark .comma, .blank .space, .number tooLarge,
    .mark .closeArray]

theorem checkIntegers_tooLarge : ∃ e, checkIntegers (textOf tooLargeText) = some (.error e) := by
  have hstring : IsElement [.string [.plain 0x31 (by decide) (by decide) (by decide)]] :=
    @IsElement.mk [] _ [] nofun (.string _) nofun
  have hnumber : IsElement [.blank .space, .number tooLarge] :=
    @IsElement.mk [.blank .space] _ [] (by simp [Blanks]) (.number _) nofun
  have htext : IsText tooLargeText := @IsElement.mk [] _ [] nofun (.array (.more hstring (.one hnumber))) nofun
  refine (checkIntegers_beyond.2 tooLargeText htext).mpr ⟨tooLarge, by simp [tooLargeText], ⟨rfl, rfl⟩, .inr ?_⟩
  decide

end Num

end KivaDb
