import KivaDb.Lib.Days
import KivaDb.Time.Iso
import Mathlib.Data.List.DropRight

namespace KivaDb

open Lib.Calendar

theorem JsonPath.head_trim {s : List Char} {c : Char} (h : c ∈ (trim s).head?) : isWhitespace c = false := by
  have hprefix : trim s <+: s.dropWhile isWhitespace := List.rdropWhile_prefix isWhitespace _
  have hhead : c ∈ (s.dropWhile isWhitespace).head? := by
    obtain ⟨r, hr⟩ := hprefix
    rw [← hr, List.head?_append, h]
    rfl
  have hnot := List.head?_dropWhile_not isWhitespace s
  rw [hhead] at hnot
  exact Bool.eq_false_iff.mpr (by simpa using hnot)

theorem JsonPath.last_trim {s : List Char} {c : Char} (h : c ∈ (trim s).getLast?) : isWhitespace c = false := by
  rw [trim, List.getLast?_reverse] at h
  have hnot := List.head?_dropWhile_not isWhitespace (s.dropWhile isWhitespace).reverse
  rw [h] at hnot
  exact Bool.eq_false_iff.mpr (by simpa using hnot)

namespace Time

namespace Part

/-- Whether a part is a number of digits. -/
def numeric : Part → Bool
  | offset | sep _ => false
  | _ => true

end Part

namespace Fields

def get (f : Fields) : Part → Option Nat
  | .year => f.year
  | .month => f.month
  | .day => f.day
  | .hour => f.hour
  | .minute => f.minute
  | .second => f.second
  | .millis => f.millis
  | .offset | .sep _ => none

theorem get_set {f : Fields} {p q : Part} (n : Nat) (hp : p.numeric = true) :
    (f.set p n).get q = if q = p then some n else f.get q := by
  cases p with
  | offset | sep => exact nomatch hp
  | _ => cases q <;> simp [set, get]

theorem offset_set (f : Fields) (p : Part) (n : Nat) : (f.set p n).offset = f.offset := by
  cases p <;> rfl

end Fields

section

variable [Chrono] [Formats]

namespace Pattern

/-- `iso` or a format: nothing for `iso`. -/
def parseFormat (kind : FormatKind) (text : String) : Except String (Option Pattern) :=
  if (trimmed text).toLower = "iso" ∨ (trimmed text).isEmpty then .ok none else (parse kind (trimmed text)).map some

def readTime (p : Pattern) (text : String) : Option Chrono.NaiveTime := (p.read text).bind timeOf

def showDate (p : Pattern) (d : Date) : String := p.write (some d) none none

def showTime (p : Pattern) (t : Chrono.NaiveTime) : String := p.write none (some t) none

/-- The text of a part is read as that part, whatever follows. -/
def Reads (p : Part) (l : List Char) (put : Fields → Fields) : Prop :=
  ∀ ps s f, readParts (p :: ps) (l ++ s) f = readParts ps s (put f)

omit [Chrono] [Formats] in
theorem reads_sep (c : Char) : Reads (.sep c) [c] id := fun ps s f => readParts_sep_cons c ps s f

omit [Chrono] [Formats] in
theorem reads_number {p : Part} (hp : p.numeric = true) {l : List Char} {n : Nat} (hlen : l.length = p.width)
    (h : Spells l n) : Reads p l fun f => f.set p n := by
  intro ps s f
  have hwidth : 0 < p.width := by cases p <;> simp [Part.width]
  have hne : l ++ s ≠ [] := by
    intro hnil
    rw [List.append_eq_nil_iff] at hnil
    rw [hnil.1] at hlen
    exact absurd hlen.symm (Nat.pos_iff_ne_zero.mp hwidth)
  have htake : (l ++ s).take p.width = l := List.take_left' hlen
  have hdrop : (l ++ s).drop p.width = s := List.drop_left' hlen
  have hnumber : number p.width (l ++ s) = some n := by
    rw [number, htake, if_pos, h.2]
    refine ⟨by rw [List.length_append]; omega, List.all_eq_true.mpr h.1⟩
  rw [readParts_cons (fun h => hne h.1)]
  cases p with
  | offset | sep => cases hp
  | _ =>
      dsimp only
      rw [hnumber, hdrop]
      rfl

omit [Chrono] [Formats] in
theorem reads_zulu : Reads .offset ['Z'] fun f => { f with offset := some 0 } := by
  intro ps s f
  have hne : ['Z'] ++ s ≠ [] := List.cons_ne_nil _ _
  rw [readParts_cons (fun h => hne h.1)]
  exact if_pos (.inl rfl)

omit [Chrono] [Formats] in
theorem reads_offset {l : List Char} {o : Int} (hlen : l.length = 6) (hascii : ∀ c ∈ l, c.toNat < 128)
    (hz : ∀ c ∈ l.head?, c ≠ 'Z' ∧ c ≠ 'z') (h : parseOffset l = some o) :
    Reads .offset l fun f => { f with offset := some o } := by
  intro ps s f
  obtain ⟨c, l, rfl⟩ : ∃ c l', l = c :: l' := List.exists_cons_of_length_pos (by omega)
  have hc := hz c rfl
  have htake : (c :: l ++ s).take 6 = c :: l := List.take_left' hlen
  have hdrop : (c :: l ++ s).drop 6 = s := List.drop_left' hlen
  have hne : c :: l ++ s ≠ [] := List.cons_ne_nil _ _
  rw [readParts_cons (fun h => hne h.1)]
  dsimp only
  rw [if_neg, htake, hdrop, h, if_pos]
  · rfl
  · refine ⟨by rw [List.length_append]; omega, ?_⟩
    rw [List.all_eq_true]
    exact fun c hc => decide_eq_true (hascii c hc)
  · rw [List.cons_append, List.head?_cons, Option.some.injEq, Option.some.injEq]
    exact not_or.mpr hc

omit [Chrono] [Formats] in
/-- Where each part's text is read as that part, their texts one after another are read as the parts. -/
theorem readParts_chunks {text : Part → List Char} {put : Part → Fields → Fields} {ps : List Part}
    (h : ∀ p ∈ ps, Reads p (text p) (put p)) (f : Fields) :
    readParts ps (ps.flatMap text) f = some (ps.foldl (fun f p => put p f) f) := by
  induction ps generalizing f with
  | nil => exact if_pos rfl
  | cons p ps ih =>
      rw [List.flatMap_cons, h p List.mem_cons_self, ih fun q hq => h q (List.mem_cons_of_mem _ hq)]
      rfl

/-- The fields after a part is read. -/
def put (d : Option Date) (t : Option Chrono.NaiveTime) (o : Option Int) : Part → Fields → Fields
  | .sep _, f => f
  | .offset, f => { f with offset := some (o.getD 0) }
  | p, f => f.set p (value d t p)
where
  /-- The number that is written for a part. -/
  value (d : Option Date) (t : Option Chrono.NaiveTime) : Part → Nat
    | .year => (d.elim 0 Date.year).toNat
    | .month => d.elim 0 Date.month
    | .day => d.elim 0 Date.day
    | .hour => t.elim 0 Formats.hour
    | .minute => t.elim 0 Formats.minute
    | .second => t.elim 0 Formats.second
    | .millis => t.elim 0 fun t => Formats.nanosecond t / 1000000
    | _ => 0

section

variable {d : Option Date} {t : Option Chrono.NaiveTime} {o : Option Int}

theorem put_numeric {p : Part} (hp : p.numeric = true) (f : Fields) : put d t o p f = f.set p (put.value d t p) := by
  cases p with
  | offset | sep => exact nomatch hp
  | _ => rfl

/-- A number is read where it is written. -/
theorem get_puts {q : Part} (hq : q.numeric = true) (ps : List Part) (f : Fields) :
    (ps.foldl (fun f p => put d t o p f) f).get q = if q ∈ ps then some (put.value d t q) else f.get q := by
  induction ps generalizing f with
  | nil => simp
  | cons p ps ih =>
      rw [List.foldl_cons, ih]
      by_cases hmem : q ∈ ps
      · rw [if_pos hmem, if_pos (List.mem_cons_of_mem _ hmem)]
      · rw [if_neg hmem]
        by_cases hp : p.numeric = true
        · rw [put_numeric hp, Fields.get_set _ hp]
          by_cases heq : q = p
          · rw [if_pos heq, if_pos (heq ▸ List.mem_cons_self), heq]
          · rw [if_neg heq, if_neg (by simp [heq, hmem])]
        · have hne : q ≠ p := by
            rintro rfl
            exact hp hq
          rw [if_neg (by simp [hne, hmem])]
          cases p with
          | offset => cases q <;> rfl
          | sep c => rfl
          | _ => exact absurd rfl hp

theorem offset_puts (ps : List Part) (f : Fields) :
    (ps.foldl (fun f p => put d t o p f) f).offset = if .offset ∈ ps then some (o.getD 0) else f.offset := by
  induction ps generalizing f with
  | nil => simp
  | cons p ps ih =>
      rw [List.foldl_cons, ih]
      by_cases hmem : Part.offset ∈ ps
      · rw [if_pos hmem, if_pos (List.mem_cons_of_mem _ hmem)]
      · rw [if_neg hmem]
        cases p with
        | offset => exact (if_pos List.mem_cons_self).symm
        | sep c => exact (if_neg (by simp [hmem])).symm
        | _ => rw [if_neg (by simp [hmem]), put_numeric rfl, Fields.offset_set]

/-- The text of an offset other than `Z`, as it is read. -/
structure OffsetText (l : List Char) (e : Int) : Prop where
  length : l.length = 6
  ascii : ∀ c ∈ l, c.toNat < 128
  dark : ∀ c ∈ l, JsonPath.isWhitespace c = false
  head : ∀ c ∈ l.head?, c ≠ 'Z' ∧ c ≠ 'z'
  parse : parseOffset l = some e

/-- What is written for a part has the width that is read. -/
structure Fits (d : Option Date) (t : Option Chrono.NaiveTime) (o : Option Int) (p : Part) : Prop where
  year : p = .year → 0 ≤ d.elim 0 Date.year
  width : p.numeric = true → put.value d t p < 10 ^ p.width
  offset : p = .offset → ∀ e, o = some e → e ≠ 0 → OffsetText (Formats.offsetText e).toList e

theorem writePart_numeric {p : Part} (h : Fits d t o p) (hp : p.numeric = true) :
    writePart d t o p = padded p.width (put.value d t p) ∧ (padded p.width (put.value d t p)).length = p.width := by
  have hwidth : 0 < p.width := by cases p <;> simp [Part.width]
  refine ⟨?_, length_padded_of_lt hwidth (h.width hp)⟩
  cases p with
  | year => exact if_neg (not_lt.mpr (h.year rfl))
  | offset | sep => cases hp
  | _ => rfl

theorem reads_writePart {p : Part} (h : Fits d t o p) : Reads p (writePart d t o p) (put d t o p) := by
  by_cases hp : p.numeric = true
  · obtain ⟨hwrite, hlen⟩ := writePart_numeric h hp
    have hput : put d t o p = fun f => f.set p (put.value d t p) := funext fun f => put_numeric hp f
    rw [hwrite, hput]
    exact reads_number hp hlen (spells_padded _ _)
  · cases p with
    | sep c => exact reads_sep c
    | offset =>
        cases o with
        | none => exact reads_zulu
        | some e =>
            by_cases he : e = 0
            · subst he
              exact reads_zulu
            · have htext := h.offset rfl e rfl he
              have hwrite : writePart d t (some e) .offset = (Formats.offsetText e).toList := if_neg he
              rw [hwrite]
              exact reads_offset htext.length htext.ascii htext.head htext.parse
    | _ => exact absurd rfl hp

/-- The text of a part is not empty, and white only where the part is. -/
theorem dark_writePart {p : Part} (h : Fits d t o p) : writePart d t o p ≠ [] ∧
    ((∀ c, p = .sep c → JsonPath.isWhitespace c = false) → ∀ c ∈ writePart d t o p, JsonPath.isWhitespace c = false) := by
  by_cases hp : p.numeric = true
  · obtain ⟨hwrite, hlen⟩ := writePart_numeric h hp
    have hwidth : 0 < p.width := by cases p <;> simp [Part.width]
    rw [hwrite]
    exact ⟨List.ne_nil_of_length_pos (by omega), fun _ c hc => dark_of_digit (isDigit_of_mem_padded hc)⟩
  · cases p with
    | sep c => exact ⟨List.cons_ne_nil _ _, fun h' c' hc' => List.mem_singleton.mp hc' ▸ h' c rfl⟩
    | offset =>
        have hzulu : ∀ c ∈ ['Z'], JsonPath.isWhitespace c = false := dark_of_all (by decide)
        cases o with
        | none => exact ⟨List.cons_ne_nil _ _, fun _ => hzulu⟩
        | some e =>
            by_cases he : e = 0
            · subst he
              exact ⟨List.cons_ne_nil _ _, fun _ => hzulu⟩
            · have htext := h.offset rfl e rfl he
              have hwrite : writePart d t (some e) .offset = (Formats.offsetText e).toList := if_neg he
              rw [hwrite]
              exact ⟨List.ne_nil_of_length_pos (by rw [htext.length]; decide), fun _ => htext.dark⟩
    | _ => exact absurd rfl hp

end

omit [Chrono] [Formats] in
theorem getLast_cons_sep {p : Part} {ps : List Part} {c : Char} (hp : p.isField = true)
    (h : (p :: ps).getLast? = some (.sep c)) : ps.getLast? = some (.sep c) := by
  cases ps with
  | nil =>
      rw [List.getLast?_singleton, Option.some.injEq] at h
      rw [h] at hp
      exact nomatch hp
  | cons q ps => rwa [List.getLast?_cons_cons] at h

omit [Chrono] [Formats] in
theorem partsOf_nil {bad : String → String} {s : List Char} {parts : List Part} (h : partsOf bad s = .ok parts)
    (hnil : parts = []) : s = [] := by
  fun_induction partsOf bad s with
  | case1 => rfl
  | case10 | case12 => cases h
  | _ =>
      obtain ⟨rest, -, rfl⟩ := cons_of_map h
      cases hnil

omit [Chrono] [Formats] in
/-- A format starts and ends with a separator only where its text does. -/
theorem partsOf_ends {bad : String → String} {s : List Char} {parts : List Part} (h : partsOf bad s = .ok parts) (c : Char) :
    (parts.head? = some (.sep c) → s.head? = some c) ∧ (parts.getLast? = some (.sep c) → s.getLast? = some c) := by
  have hlast {a : Char} {rest : List Char} (h : rest.getLast? = some c) : (a :: rest).getLast? = some c := by
    rw [List.getLast?_cons, h]
    rfl
  fun_induction partsOf bad s generalizing parts with
  | case1 =>
      cases Except.ok.inj h
      exact ⟨fun h => (by cases h), fun h => (by cases h)⟩
  | case10 | case12 => cases h
  | case11 c' rest _ _ _ _ _ _ _ _ _ hsep ih =>
      obtain ⟨parts', hr, rfl⟩ := cons_of_map h
      constructor
      · intro hhead
        cases Option.some.inj hhead
        rfl
      · intro hend
        cases parts' with
        | nil =>
            cases Option.some.inj hend
            rw [partsOf_nil hr rfl]
            rfl
        | cons p ps =>
            rw [List.getLast?_cons_cons] at hend
            exact hlast ((ih hr).2 hend)
  | case2 _ ih | case3 _ ih | case4 _ ih | case5 _ ih | case6 _ ih | case7 _ ih | case8 _ ih | case9 _ ih =>
      obtain ⟨parts', hr, rfl⟩ := cons_of_map h
      refine ⟨fun hhead => (by cases hhead), fun hend => ?_⟩
      have hrest := (ih hr).2 (getLast_cons_sep rfl hend)
      simp [List.getLast?_cons, hrest]

omit [Chrono] [Formats] in
theorem edges_of_parse {kind : FormatKind} {text : String} {p : Pattern} (h : parse kind (trimmed text) = .ok p) (c : Char) :
    (p.parts.head? = some (.sep c) → JsonPath.isWhitespace c = false) ∧
      (p.parts.getLast? = some (.sep c) → JsonPath.isWhitespace c = false) := by
  unfold parse at h
  obtain ⟨parts, hparts, h⟩ := Lib.Fallible.except_bind_ok.mp h
  obtain ⟨u, -, h⟩ := Lib.Fallible.except_bind_ok.mp h
  cases Except.ok.inj h
  rw [trimmed, String.toList_ofList] at hparts
  obtain ⟨hhead, hlast⟩ := partsOf_ends hparts c
  exact ⟨fun h => JsonPath.head_trim (hhead h), fun h => JsonPath.last_trim (hlast h)⟩

section

variable {d : Option Date} {t : Option Chrono.NaiveTime} {o : Option Int}

theorem trim_written {ps : List Part} (hfits : ∀ q ∈ ps, Fits d t o q)
    (hhead : ∀ c, ps.head? = some (.sep c) → JsonPath.isWhitespace c = false)
    (hlast : ∀ c, ps.getLast? = some (.sep c) → JsonPath.isWhitespace c = false) :
    JsonPath.trim (ps.flatMap (writePart d t o)) = ps.flatMap (writePart d t o) := by
  apply JsonPath.trim_of_ends
  · intro c hc
    cases ps with
    | nil => exact nomatch hc
    | cons q ps =>
        obtain ⟨hne, hdark⟩ := dark_writePart (hfits q List.mem_cons_self)
        rw [List.flatMap_cons, List.head?_append_of_ne_nil _ hne] at hc
        exact hdark (fun c hq => hhead c (by rw [hq]; rfl)) c (List.mem_of_mem_head? hc)
  · intro c hc
    rcases List.eq_nil_or_concat ps with rfl | ⟨init, q, rfl⟩
    · exact nomatch hc
    · obtain ⟨hne, hdark⟩ := dark_writePart (hfits q (by simp))
      rw [List.concat_eq_append, List.flatMap_append, List.flatMap_singleton, List.getLast?_append_of_ne_nil _ hne] at hc
      exact hdark (fun c hq => hlast c (by rw [hq]; simp)) c (List.mem_of_mem_getLast? hc)

/-- What is written under a format is read under it. -/
theorem read_write {kind : FormatKind} {text : String} {p : Pattern} (h : parse kind (trimmed text) = .ok p)
    (hfits : ∀ q ∈ p.parts, Fits d t o q) :
    p.read (p.write d t o) = some (p.parts.foldl (fun f q => put d t o q f) .empty) := by
  have hedges := edges_of_parse h
  rw [read, write, String.toList_ofList, trim_written hfits (fun c => (hedges c).1) (fun c => (hedges c).2)]
  exact readParts_chunks (fun q hq => reads_writePart (hfits q hq)) _

end

end Pattern

/-- `+01:00`, `-05:30`. -/
def offsetChars (o : Int) : List Char :=
  (if o < 0 then '-' else '+') :: (padded 2 (o.natAbs / 3600) ++ ':' :: padded 2 (o.natAbs / 60 % 60))

omit [Chrono] [Formats] in
theorem offsetText_chars {o : Int} (hminutes : o % 60 = 0) (hbound : o.natAbs ≤ 50400) :
    Pattern.OffsetText (offsetChars o) o := by
  obtain ⟨u, v, hh, hhs⟩ := padded_two (n := o.natAbs / 3600) (by omega)
  obtain ⟨x, y, hm, hms⟩ := padded_two (n := o.natAbs / 60 % 60) (by omega)
  have hsign : ∃ c, (if o < 0 then '-' else '+') = c ∧ (c = '-' ∨ c = '+') ∧ (c = '-' ↔ o < 0) := by
    by_cases h : o < 0
    · exact ⟨'-', if_pos h, .inl rfl, iff_of_true rfl h⟩
    · exact ⟨'+', if_neg h, .inr rfl, iff_of_false (by decide) h⟩
  obtain ⟨c, hc, hcs, hneg⟩ := hsign
  have htext : offsetChars o = [c, u, v, ':', x, y] := by
    rw [offsetChars, hc, hh, hm]
    rfl
  have hdigits : ∀ c ∈ [u, v, x, y], c.isDigit = true := by
    intro c hc
    rcases List.mem_append.mp (show c ∈ [u, v] ++ [x, y] from hc) with hc | hc
    · exact hhs.1 c hc
    · exact hms.1 c hc
  have hchars : ∀ d ∈ offsetChars o, d.isDigit = true ∨ d ∈ ['-', '+', ':'] := by
    rw [htext]
    intro d hd
    rcases List.mem_cons.mp hd with rfl | hd
    · exact .inr (by rcases hcs with rfl | rfl <;> decide)
    · by_cases hcolon : d = ':'
      · exact .inr (by rw [hcolon]; decide)
      · have hmem : d ∈ [u, v, x, y] := by
          simp only [List.mem_cons, List.not_mem_nil, or_false] at hd ⊢
          tauto
        exact .inl (hdigits d hmem)
  refine ⟨by rw [htext]; rfl, fun d hd => ?_, fun d hd => ?_, fun d hd => ?_, ?_⟩
  · rcases hchars d hd with hd | hd
    · simp only [Char.isDigit, Bool.and_eq_true, decide_eq_true_eq] at hd
      have hle : d.toNat ≤ 57 := hd.2
      omega
    · have hascii : ∀ d ∈ ['-', '+', ':'], d.toNat < 128 := by simp
      exact hascii d hd
  · rcases hchars d hd with hd | hd
    · exact dark_of_digit hd
    · exact dark_of_all (l := ['-', '+', ':']) (by decide) d hd
  · rw [htext, List.head?_cons] at hd
    obtain rfl := Option.some.inj hd
    rcases hcs with rfl | rfl <;> decide
  · have hfilter : [u, v, ':', x, y].filter (· ≠ ':') = [u, v, x, y] := by
      have hne : ∀ c ∈ [u, v, x, y], c ≠ ':' := by
        rintro c hc rfl
        exact absurd (hdigits _ hc) (by decide)
      have hu := hne u (by simp)
      have hv := hne v (by simp)
      have hx := hne x (by simp)
      have hy := hne y (by simp)
      simp [hu, hv, hx, hy]
    have hall : [u, v, x, y].all Char.isDigit = true := List.all_eq_true.mpr hdigits
    have hsigned : (if c = '-' then (-1 : Int) else 1) * ((o.natAbs / 3600 : Nat) * 3600 + (o.natAbs / 60 % 60 : Nat) * 60) = o := by
      by_cases h : c = '-'
      · have := hneg.mp h
        rw [if_pos h]
        omega
      · have := hneg.not.mp h
        rw [if_neg h]
        omega
    have hrange : ¬ (14 < o.natAbs / 3600 ∨ 59 < o.natAbs / 60 % 60) := by omega
    rw [htext, parseOffset]
    simp only [List.tail_cons, hfilter, hall, if_true, List.head?_cons, Option.some.injEq]
    show (if (14 < digitsValue [u, v] ∨ 59 < digitsValue [x, y]) then _ else _) = _
    rw [hhs.2, hms.2, if_neg hrange]
    have hvalues : digitsValue ([u, v, x, y].take 2) = o.natAbs / 3600 ∧ digitsValue ([u, v, x, y].drop 2) = o.natAbs / 60 % 60 :=
      ⟨hhs.2, hms.2⟩
    rw [hvalues.1, hvalues.2, hsigned]

/-- The nanoseconds from the first moment of 1970 to a wall clock. -/
def clockNanos (w : Wall) : Int :=
  (w.1.days * 86400 + Formats.hour w.2 * 3600 + Formats.minute w.2 * 60 + Formats.second w.2) * 1000000000 +
    Formats.nanosecond w.2

/-- What `chrono` documents of times of day, fixed offsets and instants: `nanos` is the timestamp
of an instant. Within a leap second the nanoseconds of a time are a second or more. -/
structure Timeline (nanos : Chrono.DateTime → Int) : Prop where
  time_lt : ∀ t, Formats.hour t < 24 ∧ Formats.minute t < 60 ∧ Formats.second t < 60
  fromHmsMilli : ∀ h m s ms, h < 24 → m < 60 → s < 60 → ms < 1000 → ∃ t, Formats.fromHmsMilli h m s ms = some t ∧
    Formats.hour t = h ∧ Formats.minute t = m ∧ Formats.second t = s ∧ Formats.nanosecond t = ms * 1000000
  offsetText : ∀ o, o % 60 = 0 → o.natAbs ≤ 50400 → Formats.offsetText o = String.ofList (offsetChars o)
  wallAt : ∀ o t, o.natAbs ≤ 50400 → 0 ≤ (Formats.wallAt o t).1.year ∧ (Formats.wallAt o t).1.year ≤ 9999 →
    Formats.nanosecond (Formats.wallAt 0 t).2 < 1000000000 →
      Formats.nanosecond (Formats.wallAt o t).2 < 1000000000 ∧ clockNanos (Formats.wallAt o t) = nanos t + o * 1000000000
  fixedInstant : ∀ o w, o.natAbs ≤ 50400 → 0 ≤ w.1.year ∧ w.1.year ≤ 9999 → Formats.nanosecond w.2 < 1000000000 →
    ∃ t, Formats.fixedInstant o w = some t ∧ nanos t = clockNanos w - o * 1000000000
  andUtc : ∀ w, 0 ≤ w.1.year ∧ w.1.year ≤ 9999 → Formats.nanosecond w.2 < 1000000000 → nanos (Formats.andUtc w) = clockNanos w

namespace Pattern

variable {nanos : Chrono.DateTime → Int}

theorem fits (h : Timeline nanos) {d : Option Date} {t : Option Chrono.NaiveTime} {o : Option Int} {p : Part}
    (hyear : 0 ≤ d.elim 0 Date.year ∧ d.elim 0 Date.year ≤ 9999)
    (hmillis : p = .millis → t.elim 0 Formats.nanosecond < 1000000000)
    (hoffset : ∀ e, o = some e → e % 60 = 0 ∧ e.natAbs ≤ 50400) : Fits d t o p := by
  refine ⟨fun _ => hyear.1, fun hp => ?_, fun _ e he _ => ?_⟩
  · have hdate : d.elim 0 Date.month < 100 ∧ d.elim 0 Date.day < 100 := by
      cases d with
      | none => decide
      | some d =>
          have hmonth := d.month_le
          have hday := d.day_le.trans (daysInMonth_le _ _)
          exact ⟨Nat.lt_of_le_of_lt hmonth (by decide), Nat.lt_of_le_of_lt hday (by decide)⟩
    have htime : t.elim 0 Formats.hour < 100 ∧ t.elim 0 Formats.minute < 100 ∧ t.elim 0 Formats.second < 100 := by
      cases t with
      | none => exact ⟨Nat.zero_lt_succ _, Nat.zero_lt_succ _, Nat.zero_lt_succ _⟩
      | some t =>
          obtain ⟨hh, hm, hs⟩ := h.time_lt t
          exact ⟨hh.trans (by decide), hm.trans (by decide), hs.trans (by decide)⟩
    cases p with
    | year =>
        show (d.elim 0 Date.year).toNat < 10000
        omega
    | month => exact hdate.1
    | day => exact hdate.2
    | hour => exact htime.1
    | minute => exact htime.2.1
    | second => exact htime.2.2
    | millis =>
        have hlt := hmillis rfl
        show t.elim 0 (fun t => Formats.nanosecond t / 1000000) < 1000
        cases t with
        | none => exact Nat.zero_lt_succ _
        | some t => exact Nat.div_lt_of_lt_mul hlt
    | offset | sep => exact nomatch hp
  · obtain ⟨hminutes, hbound⟩ := hoffset e he
    rw [h.offsetText e hminutes hbound, String.toList_ofList]
    exact offsetText_chars hminutes hbound

/-- The fields of what is written under a format. -/
def written (d : Option Date) (t : Option Chrono.NaiveTime) (o : Option Int) (ps : List Part) : Fields :=
  ps.foldl (fun f q => put d t o q f) .empty

section

variable {d : Option Date} {t : Option Chrono.NaiveTime} {o : Option Int} {ps : List Part}

theorem get_written {q : Part} (hq : q.numeric = true) :
    (written d t o ps).get q = if q ∈ ps then some (put.value d t q) else none := by
  rw [written, get_puts hq]
  cases q <;> rfl

theorem offset_written : (written d t o ps).offset = if .offset ∈ ps then some (o.getD 0) else none := offset_puts ps _

end

theorem dateOf_written {d : Date} (hyear : 0 ≤ d.year) {t : Option Chrono.NaiveTime} {o : Option Int} {ps : List Part}
    (hneeded : .year ∈ ps ∧ .month ∈ ps ∧ .day ∈ ps) : dateOf (written (some d) t o ps) = some d := by
  have hy : (written (some d) t o ps).year = some d.year.toNat := (get_written rfl).trans (if_pos hneeded.1)
  have hm : (written (some d) t o ps).month = some d.month := (get_written rfl).trans (if_pos hneeded.2.1)
  have hd : (written (some d) t o ps).day = some d.day := (get_written rfl).trans (if_pos hneeded.2.2)
  rw [dateOf, hy, hm, hd]
  show Date.ofYmd? (d.year.toNat : Int) d.month d.day = some d
  rw [Int.toNat_of_nonneg hyear]
  exact dif_pos ⟨d.month_pos, d.month_le, d.day_pos, d.day_le⟩

/-- A time cut to the finest field of a format. -/
structure CutTime (ps : List Part) (t t' : Chrono.NaiveTime) : Prop where
  hour : Formats.hour t' = Formats.hour t
  minute : Formats.minute t' = Formats.minute t
  second : Formats.second t' = if .second ∈ ps then Formats.second t else 0
  nanosecond : Formats.nanosecond t' = if .millis ∈ ps then Formats.nanosecond t / 1000000 * 1000000 else 0

theorem timeOf_written (h : Timeline nanos) {d : Option Date} {t : Chrono.NaiveTime} {o : Option Int} {ps : List Part}
    (hneeded : .hour ∈ ps ∧ .minute ∈ ps) (hmillis : .millis ∈ ps → Formats.nanosecond t < 1000000000) :
    ∃ t', timeOf (written d (some t) o ps) = some t' ∧ CutTime ps t t' := by
  obtain ⟨hh, hm, hs⟩ := h.time_lt t
  have hhour : (written d (some t) o ps).hour = some (Formats.hour t) := (get_written rfl).trans (if_pos hneeded.1)
  have hminute : (written d (some t) o ps).minute = some (Formats.minute t) := (get_written rfl).trans (if_pos hneeded.2)
  have hsecond : (written d (some t) o ps).second.getD 0 = if .second ∈ ps then Formats.second t else 0 := by
    have heq : (written d (some t) o ps).second = if .second ∈ ps then some (Formats.second t) else none :=
      get_written (q := .second) rfl
    rw [heq]
    split <;> rfl
  have hms : (written d (some t) o ps).millis.getD 0 = if .millis ∈ ps then Formats.nanosecond t / 1000000 else 0 := by
    have heq : (written d (some t) o ps).millis = if .millis ∈ ps then some (Formats.nanosecond t / 1000000) else none :=
      get_written (q := .millis) rfl
    rw [heq]
    split <;> rfl
  have hs' : (if .second ∈ ps then Formats.second t else 0) < 60 := by
    split
    · exact hs
    · decide
  have hms' : (if .millis ∈ ps then Formats.nanosecond t / 1000000 else 0) < 1000 := by
    split
    · next hmem => exact Nat.div_lt_of_lt_mul (hmillis hmem)
    · decide
  obtain ⟨t', ht', ehour, eminute, esecond, enano⟩ := h.fromHmsMilli _ _ _ _ hh hm hs' hms'
  refine ⟨t', ?_, ehour, eminute, esecond, ?_⟩
  · rw [timeOf, hhour, hminute, hsecond, hms]
    show (Formats.fromHmsMilli _ _ _ _).bind _ = _
    rw [ht']
    exact if_pos hs'
  · rw [enano]
    split
    · rfl
    · rfl

/-- The finest field of a format of moments, in nanoseconds. -/
def unit (ps : List Part) : Int := if .millis ∈ ps then 1000000 else if .second ∈ ps then 1000000000 else 60000000000

theorem clockNanos_cut {ps : List Part} (hms : .millis ∈ ps → .second ∈ ps) {d : Date} {t t' : Chrono.NaiveTime}
    (hlt : Formats.second t < 60 ∧ Formats.nanosecond t < 1000000000) (h : CutTime ps t t') :
    clockNanos (d, t') = clockNanos (d, t) - clockNanos (d, t) % unit ps := by
  obtain ⟨hh, hm, hs, hn⟩ := h
  unfold clockNanos unit
  simp only [hh, hm, hs, hn]
  by_cases hmillis : .millis ∈ ps
  · simp only [if_pos hmillis, if_pos (hms hmillis)]
    push_cast
    omega
  · by_cases hsecond : .second ∈ ps
    · simp only [if_neg hmillis, if_pos hsecond]
      push_cast
      omega
    · simp only [if_neg hmillis, if_neg hsecond]
      push_cast
      omega

omit [Chrono] [Formats] in
theorem seconds_of_parse {kind : FormatKind} {text : String} {p : Pattern} (h : parse kind text = .ok p) :
    .millis ∈ p.parts → .second ∈ p.parts := by
  unfold parse at h
  obtain ⟨parts, -, h⟩ := Lib.Fallible.except_bind_ok.mp h
  obtain ⟨u, hcheck, h⟩ := Lib.Fallible.except_bind_ok.mp h
  cases Except.ok.inj h
  intro hmillis
  unfold check at hcheck
  split at hcheck
  · exact nomatch hcheck
  · split at hcheck
    · exact nomatch hcheck
    · split at hcheck
      · exact nomatch hcheck
      · split_ifs at hcheck with _ hneeds
        by_contra hsecond
        refine hneeds ⟨List.mem_filter.mpr ⟨hmillis, rfl⟩, fun hmem => hsecond (List.mem_filter.mp hmem).1⟩

omit [Chrono] [Formats] in
theorem parse_of_parseFormat {kind : FormatKind} {text : String} {p : Pattern} (h : parseFormat kind text = .ok (some p)) :
    parse kind (trimmed text) = .ok p := by
  unfold parseFormat at h
  split at h
  · exact nomatch h
  · rcases hp : parse kind (trimmed text) with e | p'
    · rw [hp] at h
      exact nomatch h
    · rw [hp] at h
      exact congrArg Except.ok (Option.some.inj (Except.ok.inj h))

theorem readDate_showDate (h : Timeline nanos) {text : String} {p : Pattern} (hp : parse .date (trimmed text) = .ok p)
    {d : Date} (hyear : 0 ≤ d.year ∧ d.year ≤ 9999) : p.readDate (p.showDate d) = some d := by
  have haccepted := parse_ok hp
  have hfits : ∀ q ∈ p.parts, Fits (some d) none none q := by
    intro q hq
    exact fits h hyear (fun _ => Nat.zero_lt_succ _) fun _ he => nomatch he
  have hneeded (q : Part) (hq : q ∈ needed .date) : q ∈ p.parts := haccepted.needed q hq
  rw [readDate, showDate, read_write hp hfits]
  exact dateOf_written hyear.1 ⟨hneeded _ (by decide), hneeded _ (by decide), hneeded _ (by decide)⟩

theorem readTime_showTime (h : Timeline nanos) {text : String} {p : Pattern} (hp : parse .time (trimmed text) = .ok p)
    {t : Chrono.NaiveTime} (hmillis : .millis ∈ p.parts → Formats.nanosecond t < 1000000000) :
    ∃ t', p.readTime (p.showTime t) = some t' ∧ CutTime p.parts t t' := by
  have haccepted := parse_ok hp
  have hfits : ∀ q ∈ p.parts, Fits none (some t) none q := by
    intro q hq
    exact fits h (by decide) (fun heq => hmillis (heq ▸ hq)) fun _ he => nomatch he
  have hneeded (q : Part) (hq : q ∈ needed .time) : q ∈ p.parts := haccepted.needed q hq
  rw [readTime, showTime, read_write hp hfits]
  exact timeOf_written h ⟨hneeded _ (by decide), hneeded _ (by decide)⟩ hmillis

/-- A zone that is always the same number of seconds east of UTC. -/
def Fixed (zone : Zone) (o : Int) : Prop := zone = .fixed o ∨ (zone = .utc ∧ o = 0)

theorem Fixed.offsetAt {zone : Zone} {o : Int} (h : Fixed zone o) (t : Chrono.DateTime) : zone.offsetAt t = o := by
  rcases h with rfl | ⟨rfl, rfl⟩ <;> rfl

theorem Fixed.instant (htimeline : Timeline nanos) {zone : Zone} {o : Int} (h : Fixed zone o) (hbound : o.natAbs ≤ 50400)
    {w : Wall} (hyear : 0 ≤ w.1.year ∧ w.1.year ≤ 9999) (hlt : Formats.nanosecond w.2 < 1000000000) :
    ∃ t, zone.instant w = some t ∧ nanos t = clockNanos w - o * 1000000000 := by
  rcases h with rfl | ⟨rfl, rfl⟩
  · exact htimeline.fixedInstant o w hbound hyear hlt
  · refine ⟨_, rfl, ?_⟩
    rw [htimeline.andUtc w hyear hlt]
    omega

theorem readDatetime_showInstant (h : Timeline nanos) {text : String} {p : Pattern}
    (hp : parse .datetime (trimmed text) = .ok p) {zone : Zone} {o : Int} (hzone : Fixed zone o) (hminutes : o % 60 = 0)
    (hbound : o.natAbs ≤ 50400) {at_ : Chrono.DateTime} (hyear : 0 ≤ (zone.wall at_).1.year ∧ (zone.wall at_).1.year ≤ 9999)
    (hleap : Formats.nanosecond (Formats.wallAt 0 at_).2 < 1000000000) :
    ∃ t', p.readDatetime (p.showInstant at_ zone) zone = some (.ok t') ∧ nanos t' = nanos at_ - nanos at_ % unit p.parts := by
  have hoffset := hzone.offsetAt at_
  obtain ⟨hlt, hclock⟩ : Formats.nanosecond (zone.wall at_).2 < 1000000000 ∧
      clockNanos (zone.wall at_) = nanos at_ + o * 1000000000 := by
    rw [Zone.wall, hoffset] at hyear ⊢
    exact h.wallAt o at_ hbound hyear hleap
  generalize hwall : zone.wall at_ = w at hyear hlt hclock
  obtain ⟨d, t⟩ := w
  have haccepted := parse_ok hp
  have hneeded (q : Part) (hq : q ∈ needed .datetime) : q ∈ p.parts := haccepted.needed q hq
  have hfits : ∀ q ∈ p.parts, Fits (some d) (some t) (some o) q := by
    intro q hq
    exact fits h hyear (fun _ => hlt) fun e he => Option.some.inj he ▸ ⟨hminutes, hbound⟩
  have hshown : p.showInstant at_ zone = p.write (some d) (some t) (some o) := by
    rw [showInstant, hoffset, hwall]
  obtain ⟨t', htime, hcut⟩ : ∃ t', timeOf (written (some d) (some t) (some o) p.parts) = some t' ∧ CutTime p.parts t t' :=
    timeOf_written h ⟨hneeded _ (by decide), hneeded _ (by decide)⟩ fun _ => hlt
  have hw : wallOf (written (some d) (some t) (some o) p.parts) = some (d, t') := by
    rw [wallOf, dateOf_written hyear.1 ⟨hneeded _ (by decide), hneeded _ (by decide), hneeded _ (by decide)⟩, htime]
    rfl
  have hlt' : Formats.nanosecond t' < 1000000000 := by
    rw [hcut.nanosecond]
    split
    · exact Nat.lt_of_le_of_lt (Nat.div_mul_le_self _ _) hlt
    · decide
  have hcutNanos := clockNanos_cut (seconds_of_parse hp) ⟨(h.time_lt t).2.2, hlt⟩ hcut (d := d)
  have hnanos {r : Chrono.DateTime} (hr : nanos r = clockNanos (d, t') - o * 1000000000) :
      nanos r = nanos at_ - nanos at_ % unit p.parts := by
    rw [hr, hcutNanos, hclock]
    unfold unit
    split_ifs <;> omega
  have hread : p.read (p.write (some d) (some t) (some o)) = some (written (some d) (some t) (some o) p.parts) :=
    read_write hp hfits
  rw [hshown, readDatetime, hread]
  by_cases hmem : .offset ∈ p.parts
  · have hread : (written (some d) (some t) (some o) p.parts).offset = some o := offset_written.trans (if_pos hmem)
    obtain ⟨r, hr, hrn⟩ := h.fixedInstant o (d, t') hbound hyear hlt'
    refine ⟨r, ?_, hnanos hrn⟩
    simp only [Option.bind_eq_bind, Option.bind_some, hw, hread, hr]
    rfl
  · have hread : (written (some d) (some t) (some o) p.parts).offset = none := offset_written.trans (if_neg hmem)
    obtain ⟨r, hr, hrn⟩ := hzone.instant h hbound (w := (d, t')) hyear hlt'
    refine ⟨r, ?_, hnanos hrn⟩
    simp only [Option.bind_eq_bind, Option.bind_some, hw, hread, hr]
    rfl

/-- What a format writes it reads back, to its finest field: dates and moments of the years 0 to 9999,
and times and moments outside leap seconds. -/
theorem formats_read_back (h : Timeline nanos) :
    (∀ text p, parseFormat .date text = .ok (some p) → ∀ d : Date, 0 ≤ d.year ∧ d.year ≤ 9999 →
      p.readDate (p.showDate d) = some d) ∧
    (∀ text p, parseFormat .time text = .ok (some p) → ∀ t, (.millis ∈ p.parts → Formats.nanosecond t < 1000000000) →
      ∃ t', p.readTime (p.showTime t) = some t' ∧ CutTime p.parts t t') ∧
    (∀ text p, parseFormat .datetime text = .ok (some p) → ∀ zone o, Fixed zone o → o % 60 = 0 → o.natAbs ≤ 14 * 3600 →
      ∀ at_, 0 ≤ (zone.wall at_).1.year ∧ (zone.wall at_).1.year ≤ 9999 →
        Formats.nanosecond (Formats.wallAt 0 at_).2 < 1000000000 →
          ∃ t', p.readDatetime (p.showInstant at_ zone) zone = some (.ok t') ∧ nanos t' = nanos at_ - nanos at_ % unit p.parts) := by
  refine ⟨fun text p hp d hyear => ?_, fun text p hp t hmillis => ?_, fun text p hp zone o hzone hminutes hbound at_ hyear hleap => ?_⟩
  · exact readDate_showDate h (parse_of_parseFormat hp) hyear
  · exact readTime_showTime h (parse_of_parseFormat hp) hmillis
  · exact readDatetime_showInstant h (parse_of_parseFormat hp) hzone hminutes hbound hyear hleap

end Pattern

end

section Samples

/-- Instants in nanoseconds; times of day with their nanoseconds, a second more within a leap second. -/
local instance nanoChrono : Chrono where
  DateTime := Int
  NaiveTime := Fin 24 × Fin 60 × Fin 60 × Fin 2000000000
  decEqDateTime := inferInstance
  decEqNaiveTime := inferInstance
  iso _ := ""
  timeText _ := ""
  parseDatetime _ := none
  parseTime _ := none

local instance dayHours : NeZero 24 := ⟨by decide⟩

/-- The time of day so many nanoseconds after midnight. -/
def nanoTime (n : Int) : Fin 24 × Fin 60 × Fin 60 × Fin 2000000000 :=
  (Fin.ofNat 24 (n / 3600000000000).toNat, Fin.ofNat 60 (n / 60000000000).toNat, Fin.ofNat 60 (n / 1000000000).toNat,
    Fin.ofNat 2000000000 (n % 1000000000).toNat)

def nanoClock (w : Date × Fin 24 × Fin 60 × Fin 60 × Fin 2000000000) : Int :=
  (w.1.days * 86400 + w.2.1.val * 3600 + w.2.2.1.val * 60 + w.2.2.2.1.val) * 1000000000 + w.2.2.2.2.val

local instance nanoFormats : Formats where
  Tz := Empty
  tz _ := none
  tzName := Empty.elim
  offsetText o := String.ofList (offsetChars o)
  rfc3339 _ := none
  dateTime _ _ := none
  wall _ _ := none
  date _ _ := none
  time _ _ := none
  midnight := nanoTime 0
  hour t := t.1.val
  minute t := t.2.1.val
  second t := t.2.2.1.val
  nanosecond t := t.2.2.2.val
  withNanosecond t n := if h : n < 2000000000 then some (t.1, t.2.1, t.2.2.1, ⟨n, h⟩) else none
  fromHmsMilli h m s ms :=
    if hlt : h < 24 ∧ m < 60 ∧ s < 60 ∧ ms < 1000 then
      some (⟨h, hlt.1⟩, ⟨m, hlt.2.1⟩, ⟨s, hlt.2.2.1⟩, ⟨ms * 1000000, by have := hlt.2.2.2; omega⟩)
    else none
  andUtc w := nanoClock w
  machineInstant w := some (nanoClock w)
  tzInstant := Empty.elim
  fixedInstant o w := some (nanoClock w - o * 1000000000)
  machineOffset _ := 0
  tzOffset := Empty.elim
  wallAt o := fun t : Int =>
    (Date.epoch.addDays ((t + o * 1000000000) / 86400000000000), nanoTime ((t + o * 1000000000) % 86400000000000))

theorem nanoClock_wallAt (o t : Int) : nanoClock (Formats.wallAt o (show Chrono.DateTime from t)) = t + o * 1000000000 := by
  show nanoClock (Date.epoch.addDays ((t + o * 1000000000) / 86400000000000), nanoTime ((t + o * 1000000000) % 86400000000000)) = _
  generalize t + o * 1000000000 = n
  rw [nanoClock, Date.days_addDays, Date.days_epoch]
  simp only [nanoTime, Fin.val_ofNat]
  omega

theorem timeline_nanos : Timeline (fun t : Int => t) where
  time_lt t := ⟨t.1.isLt, t.2.1.isLt, t.2.2.1.isLt⟩
  fromHmsMilli h m s ms hh hm hs hms := ⟨_, dif_pos ⟨hh, hm, hs, hms⟩, rfl, rfl, rfl, rfl⟩
  offsetText _ _ _ := rfl
  wallAt o := fun (t : Int) _ _ _ => by
    refine ⟨?_, nanoClock_wallAt o t⟩
    show ((t + o * 1000000000) % 86400000000000 % 1000000000).toNat % 2000000000 < 1000000000
    omega
  fixedInstant o w _ _ _ := ⟨_, rfl, rfl⟩
  andUtc _ _ _ := rfl

def slashes : Pattern := ⟨"DD/MM/YYYY", [.day, .sep '/', .month, .sep '/', .year]⟩

def toTheMinute : Pattern := ⟨"HH.mm", [.hour, .sep '.', .minute]⟩

def toTheMilli : Pattern :=
  ⟨"YYYYMMDDTHHmmss.SSSXXX", [.year, .month, .day, .sep 'T', .hour, .minute, .second, .sep '.', .millis, .offset]⟩

theorem formats_read_back_nanos :
    slashes.readDate (slashes.showDate exampleDate) = some exampleDate ∧
      (∃ t', toTheMinute.readTime (toTheMinute.showTime (nanoTime 1234567890123)) = some t' ∧
        Pattern.CutTime toTheMinute.parts (nanoTime 1234567890123) t') ∧
      ∃ t' : Int, toTheMilli.readDatetime (toTheMilli.showInstant (1234567890123 : Int) (.fixed 3600)) (.fixed 3600) =
        some (.ok t') ∧ t' = 1234567890123 - 1234567890123 % Pattern.unit toTheMilli.parts := by
  have hback := Pattern.formats_read_back timeline_nanos
  refine ⟨hback.1 "DD/MM/YYYY" slashes ?_ exampleDate (by decide), hback.2.1 "HH.mm" toTheMinute ?_ (nanoTime 1234567890123) ?_,
    hback.2.2 "YYYYMMDDTHHmmss.SSSXXX" toTheMilli ?_ (.fixed 3600) 3600 (.inl rfl) (by decide) (by decide)
      (1234567890123 : Int) ?_ ?_⟩
  · exact Lib.Fallible.toOption_eq_some.mp (by decide +kernel)
  · exact Lib.Fallible.toOption_eq_some.mp (by decide +kernel)
  · decide
  · exact Lib.Fallible.toOption_eq_some.mp (by decide +kernel)
  · decide +kernel
  · decide +kernel

end Samples

section Samples

attribute [local instance] wallChrono wallDecEq wallFormats

def yearTenThousand : Date := .of 10000 1 1 (by decide)

def lastDay : Date := .of 2016 12 31 (by decide)

def milliClock : Pattern := ⟨"HH:mm:ss.SSS", [.hour, .sep ':', .minute, .sep ':', .second, .sep '.', .millis]⟩

def minutes : Pattern := ⟨"YYYY-MM-DD HH:mm", [.year, .sep '-', .month, .sep '-', .day, .sep ' ', .hour, .sep ':', .minute]⟩

def millis : Pattern :=
  ⟨"YYYYMMDD HHmmss.SSS", [.year, .month, .day, .sep ' ', .hour, .minute, .second, .sep '.', .millis]⟩

/-- The year 10000 has five digits, and the milliseconds within a leap second have four. -/
theorem not_read_back :
    (Pattern.parseFormat .datetime "YYYY-MM-DD HH:mm" = .ok (some minutes) ∧
      minutes.readDatetime (minutes.showInstant (yearTenThousand, 0, 0, 0, 0) .utc) .utc = none) ∧
    (Pattern.parseFormat .time "HH:mm:ss.SSS" = .ok (some milliClock) ∧
      milliClock.readTime (milliClock.showTime (23, 59, 59, 1500)) = none) ∧
    (Pattern.parseFormat .datetime "YYYYMMDD HHmmss.SSS" = .ok (some millis) ∧
      millis.readDatetime (millis.showInstant (lastDay, 23, 59, 59, 1500) .utc) .utc = none) := by
  refine ⟨⟨?_, ?_⟩, ⟨?_, ?_⟩, ?_, ?_⟩
  · exact Lib.Fallible.toOption_eq_some.mp (by decide +kernel)
  · exact Option.isNone_iff_eq_none.mp (by decide +kernel)
  · exact Lib.Fallible.toOption_eq_some.mp (by decide +kernel)
  · exact Option.isNone_iff_eq_none.mp (by decide +kernel)
  · exact Lib.Fallible.toOption_eq_some.mp (by decide +kernel)
  · exact Option.isNone_iff_eq_none.mp (by decide +kernel)

end Samples

end Time

end KivaDb
