import KivaDb.Resp.Wire

namespace KivaDb.Resp.Wire

open Lib.LittleEndian Lib.Utf8 Lib.Framing

/-- What a reader of the protocol makes of a frame. -/
inductive Message
  | simple (s : String)
  | error (s : String)
  | int (i : Int64)
  | bulk (b : Option Bytes)
  | array (items : Option (List Message))
  | null
  | map (pairs : List (Message × Message))
  | push (items : List Message)
  | double (d : Double)
  | set (items : List Message)

namespace Message

def number (l : Bytes) : Option Nat :=
  (fromUtf8 l).bind fun s =>
    if s.toList ≠ [] ∧ s.toList.all Char.isDigit then some (Nat.ofDigitChars 10 s.toList 0) else none

def pairUp : List Message → List (Message × Message)
  | k :: v :: rest => (k, v) :: pairUp rest
  | _ => []

def minusOne : Bytes := ascii ['-', '1']

/-- As many values as the line says. -/
def counted (read : Parser UInt8 Message) (per : Nat) (l : Bytes) : Parser UInt8 (List Message) := fun rest => do
  let n ← number l
  times read (n * per) rest

/-- What follows the first line of a frame, by the mark it begins with. -/
def readBody (read : Parser UInt8 Message) (mark : UInt8) (l : Bytes) : Parser UInt8 Message := fun rest =>
  if mark = 43 then (fromUtf8 l).map fun s => (simple s, rest)
  else if mark = 45 then (fromUtf8 l).map fun s => (error s, rest)
  else if mark = 58 then ((fromUtf8 l).bind parseI64).map fun i => (int i, rest)
  else if mark = 95 then if l = [] then some (null, rest) else none
  else if mark = 44 then ((fromUtf8 l).bind fun s => Double.parse s.toList).map fun d => (double d, rest)
  else if mark = 36 then
    if l = minusOne then some (bulk none, rest)
    else do
      let n ← number l
      let (b, rest) ← chunk n rest
      return (bulk (some b), rest)
  else if mark = 42 then
    if l = minusOne then some (array none, rest)
    else (counted read 1 l rest).map fun p => (array (some p.1), p.2)
  else if mark = 37 then (counted read 2 l rest).map fun p => (map (pairUp p.1), p.2)
  else if mark = 62 then (counted read 1 l rest).map fun p => (push p.1, p.2)
  else if mark = 126 then (counted read 1 l rest).map fun p => (set p.1, p.2)
  else none

def readFrom : Nat → Parser UInt8 Message
  | 0, _ => none
  | _, [] => none
  | fuel + 1, mark :: rest => do
      let (l, rest) ← line rest
      readBody (readFrom fuel) mark l rest

/-- A reader of both versions of the protocol. -/
def read (b : Bytes) : Option (Message × Bytes) := readFrom b.length b

end Message

mutual

/-- What is left of a reply on the way: RESP2 has arrays for maps, sets and pushes and text for doubles,
RESP3 has one null, and a zero has no sign. -/
def received [Display] (resp3 : Bool) : Reply → Message
  | .bulk none => if resp3 then .null else .bulk none
  | .array none => if resp3 then .null else .array none
  | .map pairs =>
      if resp3 then .map (Message.pairUp (receivedPairs resp3 pairs)) else .array (some (receivedPairs resp3 pairs))
  | .push items => if resp3 then .push (receivedAll resp3 items) else .array (some (receivedAll resp3 items))
  | .sent => .null
  | .double d => if resp3 then .double d.unsigned else .bulk (some (ascii d.fmtF64))
  | .set items => if resp3 then .set (receivedAll resp3 items) else .array (some (receivedAll resp3 items))
  | .simple s => .simple (oneLine s)
  | .error s => .error (oneLine s)
  | .int i => .int i
  | .bulk (some b) => .bulk (some b)
  | .array (some items) => .array (some (receivedAll resp3 items))

def receivedAll [Display] (resp3 : Bool) : List Reply → List Message
  | [] => []
  | r :: rs => received resp3 r :: receivedAll resp3 rs

/-- Keys and values in turn. -/
def receivedPairs [Display] (resp3 : Bool) : List (Reply × Reply) → List Message
  | [] => []
  | (k, v) :: ps => received resp3 k :: received resp3 v :: receivedPairs resp3 ps

end

mutual

/-- No part of the reply was already sent. -/
def Reply.whole : Reply → Bool
  | .sent => false
  | .map pairs => wholePairs pairs
  | .push items | .set items | .array (some items) => wholeAll items
  | _ => true

def wholeAll : List Reply → Bool
  | [] => true
  | r :: rs => r.whole && wholeAll rs

def wholePairs : List (Reply × Reply) → Bool
  | [] => true
  | (k, v) :: ps => k.whole && (v.whole && wholePairs ps)

end

section Lines

theorem not_mem_asBytes {s : String} (h : '\r' ∉ s.toList) : 13 ∉ asBytes s := fun hmem => h (mem_asBytes (by decide) hmem)

theorem not_mem_ascii {cs : List Char} (h : '\r' ∉ cs) : 13 ∉ ascii cs :=
  not_mem_asBytes (by rwa [String.toList_ofList])

theorem not_mem_oneLine (s : String) : 13 ∉ asBytes (oneLine s) := by
  apply not_mem_asBytes
  rw [oneLine, String.toList_ofList]
  intro h
  obtain ⟨c, -, hc⟩ := List.mem_map.mp h
  split at hc
  · exact absurd hc (by decide)
  · next hne => exact hne (.inl hc)

theorem isDigit_toDigits {n : Nat} {c : Char} (h : c ∈ Nat.toDigits 10 n) : c.isDigit = true :=
  Nat.isDigit_of_mem_toDigits (by decide) (by decide) h

theorem not_mem_toDigits (n : Nat) : '\r' ∉ Nat.toDigits 10 n := fun h => absurd (isDigit_toDigits h) (by decide)

theorem number_toDigits (n : Nat) : Message.number (ascii (Nat.toDigits 10 n)) = some n := by
  have hall : (Nat.toDigits 10 n).all Char.isDigit = true := List.all_eq_true.mpr fun c hc => isDigit_toDigits hc
  rw [Message.number, ascii, fromUtf8_asBytes, Option.bind_some, String.toList_ofList, if_pos ⟨Nat.toDigits_ne_nil, hall⟩,
    Nat.ofDigitChars_ten_toDigits]

theorem toDigits_ne_minusOne (n : Nat) : ascii (Nat.toDigits 10 n) ≠ Message.minusOne := by
  intro h
  have hlist := String.ofList_injective (asBytes_injective h)
  have hminus : '-' ∈ Nat.toDigits 10 n := hlist ▸ List.mem_cons_self
  exact absurd (isDigit_toDigits hminus) (by decide)

theorem parseI64_intText (i : Int64) : parseI64 (String.ofList (intText i.toInt)) = some i := by
  have hdigit : ∀ c ∈ Nat.toDigits 10 i.toInt.natAbs, c.isDigit = true := fun c hc => isDigit_toDigits hc
  have hempty : (Nat.toDigits 10 i.toInt.natAbs).isEmpty = false := List.isEmpty_eq_false_iff.mpr Nat.toDigits_ne_nil
  have hall : (Nat.toDigits 10 i.toInt.natAbs).all Char.isDigit = true := List.all_eq_true.mpr hdigit
  have hlo := i.le_toInt
  have hhi := i.toInt_lt
  rw [parseI64, String.toList_ofList, intText]
  by_cases hneg : i.toInt < 0
  · have hback : (-(i.toInt.natAbs : Int)) = i.toInt := by omega
    rw [if_pos hneg, List.singleton_append]
    simp only [signed, hempty, hall, Nat.ofDigitChars_ten_toDigits, Bool.not_true, Bool.or_self, Bool.false_eq_true,
      if_false, if_true]
    rw [if_pos (by omega), hback, Int64.ofInt_toInt]
  · have hback : (i.toInt.natAbs : Int) = i.toInt := by omega
    rw [if_neg hneg, List.nil_append, signed_of_digits hdigit]
    simp only [hempty, hall, Nat.ofDigitChars_ten_toDigits, Bool.not_true, Bool.or_self, Bool.false_eq_true, if_false]
    rw [if_pos (by omega), ← Int64.ofInt_eq_ofNat, hback, Int64.ofInt_toInt]

theorem not_mem_intText (i : Int) : '\r' ∉ intText i := by
  intro h
  rcases mem_intText h with h | h
  · exact absurd h (by decide)
  · exact absurd h (by decide)

variable [Display]

theorem not_mem_fmtF64 (d : Double) : '\r' ∉ d.fmtF64 := by
  cases d with
  | finite f =>
      rw [Double.fmtF64]
      split
      · exact not_mem_intText _
      · intro h
        rcases Display.plain f _ h with h | h | h
        · exact absurd h (by decide)
        · exact absurd h (by decide)
        · exact absurd h (by decide)
  | infinite negative =>
      intro h
      rcases List.mem_append.mp h with h | h
      · split at h
        · exact absurd (List.mem_singleton.mp h) (by decide)
        · cases h
      · revert h
        decide
  | nan =>
      have hnot : '\r' ∉ ['N', 'a', 'N'] := by decide
      exact hnot

theorem not_mem_doubleText (d : Double) : '\r' ∉ doubleText d := by
  rw [doubleText]
  split
  · decide
  · exact not_mem_fmtF64 d

theorem parse_doubleText (d : Double) : Double.parse (doubleText d) = some d.unsigned := by
  cases d with
  | finite f =>
      rw [doubleText, if_neg (by simp)]
      exact Double.parse_fmtF64 f
  | infinite negative => cases negative <;> rfl
  | nan => rfl

end Lines

section Frames

open Message

variable {fuel n : Nat} {mark : UInt8} {l body : Bytes} {v : Message} {vs : List Message}

/-- A line and what is read after it make a frame. -/
theorem consumes_frame (hl : 13 ∉ l) (h : Consumes (readBody (Message.readFrom fuel) mark l) body v) :
    Consumes (Message.readFrom (fuel + 1)) (mark :: (l ++ crlf) ++ body) v := by
  intro tail
  have hline := consumes_line hl (body ++ tail)
  rw [← List.append_assoc] at hline
  change (do let (l, rest) ← line ((l ++ crlf) ++ body ++ tail); readBody (Message.readFrom fuel) mark l rest) = _
  rw [hline]
  exact h tail

/-- A frame of one line. -/
theorem consumes_leaf {fuel : Nat} (hl : 13 ∉ l) (hf : (mark :: (l ++ crlf)).length ≤ fuel)
    (h : ∀ fuel tail, readBody (Message.readFrom fuel) mark l tail = some (v, tail)) :
    Consumes (Message.readFrom fuel) (mark :: (l ++ crlf)) v := by
  obtain ⟨k, rfl⟩ : ∃ k, fuel = k + 1 := ⟨fuel - 1, by rw [List.length_cons] at hf; omega⟩
  rw [← List.append_nil (mark :: (l ++ crlf))]
  exact consumes_frame hl (h k)

theorem consumes_counted {per n : Nat} {read : Parser UInt8 Message} (h : Consumes (times read (n * per)) body vs) :
    Consumes (counted read per (ascii (Nat.toDigits 10 n))) body vs := by
  intro tail
  rw [counted, number_toDigits]
  exact h tail

theorem consumes_bulk (b : Bytes) : Consumes (Message.readFrom (fuel + 1)) (bulkBytes b) (.bulk (some b)) := by
  apply consumes_frame (not_mem_ascii (not_mem_toDigits _))
  intro tail
  change (if ascii (Nat.toDigits 10 b.length) = minusOne then _ else _) = _
  rw [if_neg (toDigits_ne_minusOne _), number_toDigits]
  change (do let (b, rest) ← chunk b.length (b ++ crlf ++ tail); pure (Message.bulk (some b), rest)) = _
  rw [consumes_chunk]
  rfl

theorem consumes_array (h : Consumes (times (Message.readFrom fuel) (n * 1)) body vs) :
    Consumes (Message.readFrom (fuel + 1)) (header 42 n ++ body) (.array (some vs)) := by
  apply consumes_frame (not_mem_ascii (not_mem_toDigits n))
  intro tail
  change (if ascii (Nat.toDigits 10 n) = minusOne then _ else _) = _
  rw [if_neg (toDigits_ne_minusOne n), consumes_counted h]
  rfl

/-- A push, a set or, of twice as many values, a map. -/
theorem consumes_aggregate {per : Nat} (make : List Message → Message)
    (hbody : ∀ rest, readBody (Message.readFrom fuel) mark (ascii (Nat.toDigits 10 n)) rest =
      (counted (Message.readFrom fuel) per (ascii (Nat.toDigits 10 n)) rest).map fun p => (make p.1, p.2))
    (h : Consumes (times (Message.readFrom fuel) (n * per)) body vs) :
    Consumes (Message.readFrom (fuel + 1)) (header mark n ++ body) (make vs) := by
  apply consumes_frame (not_mem_ascii (not_mem_toDigits n))
  intro tail
  rw [hbody, consumes_counted h]
  rfl

variable (resp3 : Bool)

theorem consumes_aggregate_of {resp3Mark : UInt8} {make : List Message → Message}
    (hbody : ∀ rest, readBody (Message.readFrom fuel) resp3Mark (ascii (Nat.toDigits 10 n)) rest =
      (counted (Message.readFrom fuel) 1 (ascii (Nat.toDigits 10 n)) rest).map fun p => (make p.1, p.2))
    (h : Consumes (times (Message.readFrom fuel) (n * 1)) body vs) :
    Consumes (Message.readFrom (fuel + 1)) (header (if resp3 then resp3Mark else 42) n ++ body)
      (if resp3 then make vs else .array (some vs)) := by
  cases resp3 with
  | true => exact consumes_aggregate make hbody h
  | false => exact consumes_array h

theorem fuel_of {xs : Bytes} {fuel : Nat} (h : (mark :: xs ++ body).length ≤ fuel) : ∃ k, fuel = k + 1 ∧ body.length ≤ k := by
  rw [List.length_append, List.length_cons] at h
  exact ⟨fuel - 1, by omega, by omega⟩

variable [Display]

mutual

/-- A frame ends where the reply does, whatever comes behind it. -/
theorem consumes_encode : (r : Reply) → r.whole = true → ∀ fuel, (encode resp3 r).length ≤ fuel →
    Consumes (Message.readFrom fuel) (encode resp3 r) (received resp3 r)
  | .simple s, _, fuel, hf => by
      rw [encode] at hf ⊢
      apply consumes_leaf (not_mem_oneLine s) hf
      intro fuel tail
      rw [readBody, if_pos rfl, fromUtf8_asBytes, received]
      rfl
  | .error s, _, fuel, hf => by
      rw [encode] at hf ⊢
      apply consumes_leaf (not_mem_oneLine s) hf
      intro fuel tail
      rw [readBody, if_neg (by decide), if_pos rfl, fromUtf8_asBytes, received]
      rfl
  | .int i, _, fuel, hf => by
      rw [encode] at hf ⊢
      apply consumes_leaf (not_mem_ascii (not_mem_intText _)) hf
      intro fuel tail
      change ((fromUtf8 (ascii (intText i.toInt))).bind parseI64).map _ = _
      rw [ascii, fromUtf8_asBytes, Option.bind_some, parseI64_intText, received]
      rfl
  | .bulk none, _, fuel, hf => by
      rw [encode] at hf ⊢
      rw [received]
      cases resp3 with
      | true => exact consumes_leaf (l := []) (by decide) hf fun _ _ => rfl
      | false => exact consumes_leaf (l := minusOne) (by decide) hf fun _ _ => rfl
  | .bulk (some b), _, fuel, hf => by
      rw [encode] at hf ⊢
      rw [received]
      obtain ⟨k, rfl, -⟩ := fuel_of hf
      exact consumes_bulk b
  | .array none, _, fuel, hf => by
      rw [encode] at hf ⊢
      rw [received]
      cases resp3 with
      | true => exact consumes_leaf (l := []) (by decide) hf fun _ _ => rfl
      | false => exact consumes_leaf (l := minusOne) (by decide) hf fun _ _ => rfl
  | .array (some items), hw, fuel, hf => by
      rw [encode] at hf ⊢
      rw [received]
      obtain ⟨k, rfl, hk⟩ := fuel_of hf
      rw [Reply.whole] at hw
      apply consumes_array
      rw [Nat.mul_one]
      exact consumes_all items hw k hk
  | .map pairs, hw, fuel, hf => by
      rw [encode] at hf ⊢
      rw [received]
      rw [Reply.whole] at hw
      have hpairs := consumes_pairs pairs hw
      cases resp3 with
      | true =>
          obtain ⟨k, rfl, hk⟩ := fuel_of hf
          exact consumes_aggregate (fun vs => .map (pairUp vs)) (fun _ => rfl) (hpairs k hk)
      | false =>
          obtain ⟨k, rfl, hk⟩ := fuel_of hf
          apply consumes_array
          rw [Nat.mul_one]
          exact hpairs k hk
  | .push items, hw, fuel, hf => by
      rw [encode] at hf ⊢
      rw [received]
      obtain ⟨k, rfl, hk⟩ := fuel_of hf
      rw [Reply.whole] at hw
      apply consumes_aggregate_of resp3 fun _ => rfl
      rw [Nat.mul_one]
      exact consumes_all items hw k hk
  | .double d, _, fuel, hf => by
      rw [encode] at hf ⊢
      rw [received]
      cases resp3 with
      | true =>
          apply consumes_leaf (not_mem_ascii (not_mem_doubleText d)) hf
          intro fuel tail
          change ((fromUtf8 (ascii (doubleText d))).bind fun s => Double.parse s.toList).map _ = _
          rw [ascii, fromUtf8_asBytes, Option.bind_some, String.toList_ofList, parse_doubleText]
          rfl
      | false =>
          obtain ⟨k, rfl, -⟩ := fuel_of hf
          exact consumes_bulk _
  | .set items, hw, fuel, hf => by
      rw [encode] at hf ⊢
      rw [received]
      obtain ⟨k, rfl, hk⟩ := fuel_of hf
      rw [Reply.whole] at hw
      apply consumes_aggregate_of resp3 fun _ => rfl
      rw [Nat.mul_one]
      exact consumes_all items hw k hk
  | .sent, hw, _, _ => nomatch hw

theorem consumes_all : (rs : List Reply) → wholeAll rs = true → ∀ fuel, (encodeAll resp3 rs).length ≤ fuel →
    Consumes (times (Message.readFrom fuel) rs.length) (encodeAll resp3 rs) (receivedAll resp3 rs)
  | [], _, _, _ => .nil
  | r :: rs, hw, fuel, hf => by
      rw [encodeAll] at hf ⊢
      rw [wholeAll, Bool.and_eq_true] at hw
      rw [List.length_append] at hf
      exact .cons (consumes_encode r hw.1 fuel (by omega)) (consumes_all rs hw.2 fuel (by omega))

theorem consumes_pairs : (ps : List (Reply × Reply)) → wholePairs ps = true → ∀ fuel, (encodePairs resp3 ps).length ≤ fuel →
    Consumes (times (Message.readFrom fuel) (ps.length * 2)) (encodePairs resp3 ps) (receivedPairs resp3 ps)
  | [], _, _, _ => .nil
  | (k, v) :: ps, hw, fuel, hf => by
      rw [encodePairs] at hf ⊢
      rw [wholePairs, Bool.and_eq_true, Bool.and_eq_true] at hw
      rw [List.length_append, List.length_append] at hf
      rw [List.length_cons, Nat.add_mul]
      exact .cons (consumes_encode k hw.1 fuel (by omega)) (.cons (consumes_encode v hw.2.1 fuel (by omega))
        (consumes_pairs ps hw.2.2 fuel (by omega)))

end

/-- A reader fed a reply and anything behind it consumes the reply, and gives it back. -/
theorem read_encode {r : Reply} (h : r.whole = true) (tail : Bytes) :
    Message.read (encode resp3 r ++ tail) = some (received resp3 r, tail) := by
  apply consumes_encode resp3 r h
  rw [List.length_append]
  exact Nat.le_add_right _ _

end Frames

end KivaDb.Resp.Wire
