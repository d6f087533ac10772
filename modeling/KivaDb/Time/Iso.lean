import KivaDb.ExtendedBack
import KivaDb.Time.Layout

namespace KivaDb

open Lib.Calendar

theorem JsonPath.dropWhile_of_head {l : List Char} (h : ∀ c ∈ l.head?, isWhitespace c = false) :
    l.dropWhile isWhitespace = l := by
  cases l with
  | nil => rfl
  | cons c cs => rw [List.dropWhile_cons_of_neg (by simp [h c rfl])]

theorem JsonPath.trim_of_ends {l : List Char} (h : ∀ c ∈ l.head?, isWhitespace c = false)
    (h' : ∀ c ∈ l.getLast?, isWhitespace c = false) : trim l = l := by
  rw [trim, dropWhile_of_head h, dropWhile_of_head (by rwa [List.head?_reverse]), List.reverse_reverse]

namespace Time

theorem replaceFirst_of_notMem {a b : Char} {l : List Char} (h : a ∉ l) : replaceFirst a b l = l := by
  induction l with
  | nil => rfl
  | cons c l ih =>
      rw [List.mem_cons, not_or] at h
      rw [replaceFirst, if_neg (Ne.symm h.1), ih h.2]

theorem replaceFirst_append {a b : Char} {l : List Char} (h : a ∉ l) (r : List Char) :
    replaceFirst a b (l ++ a :: r) = l ++ b :: r := by
  induction l with
  | nil => exact if_pos rfl
  | cons c l ih =>
      rw [List.mem_cons, not_or] at h
      rw [List.cons_append, replaceFirst, if_neg (Ne.symm h.1), ih h.2, List.cons_append]

theorem stripSuffix_of_last {c d : Char} {l s : List Char} (hs : s.getLast? = some d) (hne : c ≠ d) :
    stripSuffix (l ++ [c]) s = none := by
  refine if_neg fun hsuffix => ?_
  obtain ⟨r, rfl⟩ := List.isSuffixOf_iff_suffix.mp hsuffix
  rw [← List.append_assoc, List.getLast?_concat] at hs
  exact hne (Option.some.inj hs)

/-- Digits, and the number that they write. -/
def Spells (l : List Char) (n : Nat) : Prop := (∀ c ∈ l, c.isDigit = true) ∧ digitsValue l = n

theorem digitsValue_eq (l : List Char) : digitsValue l = Nat.ofDigitChars 10 l 0 := by
  rw [digitsValue, Nat.ofDigitChars_eq_foldl]
  congr 1
  funext n c
  rw [Nat.mul_comm]
  rfl

theorem spells_padded (width n : Nat) : Spells (padded width n) n :=
  ⟨fun _ => isDigit_of_mem_padded, (digitsValue_eq _).trans (ofDigitChars_padded width n)⟩

theorem length_padded_of_lt {width n : Nat} (hw : 0 < width) (h : n < 10 ^ width) : (padded width n).length = width := by
  have hle := (Nat.length_toDigits_le_iff (b := 10) (by decide) hw).mpr h
  rw [padded, List.length_append, List.length_replicate, Nat.sub_add_cancel hle]

theorem padded_two {n : Nat} (h : n < 100) : ∃ u v, padded 2 n = [u, v] ∧ Spells [u, v] n := by
  have hlen : (padded 2 n).length = 2 := length_padded_of_lt (by decide) h
  obtain ⟨u, v, huv⟩ := List.length_eq_two.mp hlen
  exact ⟨u, v, huv, huv ▸ spells_padded 2 n⟩

theorem padded_four {n : Nat} (h : n < 10000) : ∃ u v w x, padded 4 n = [u, v, w, x] ∧ Spells [u, v, w, x] n := by
  have hlen : (padded 4 n).length = 4 := length_padded_of_lt (by decide) h
  match hl : padded 4 n with
  | [u, v, w, x] => exact ⟨u, v, w, x, rfl, hl ▸ spells_padded 4 n⟩
  | [] | [_] | [_, _] | [_, _, _] => exact absurd (hl ▸ hlen) (by simp)
  | _ :: _ :: _ :: _ :: _ :: _ =>
      rw [hl] at hlen
      exact absurd hlen (by simp)

theorem dateText_spelled {d : Date} (h : 0 ≤ d.year ∧ d.year ≤ 9999) : ∃ y₁ y₂ y₃ y₄ m₁ m₂ d₁ d₂,
    (dateText d).toList = [y₁, y₂, y₃, y₄, '-', m₁, m₂, '-', d₁, d₂] ∧ Spells [y₁, y₂, y₃, y₄] d.year.toNat ∧
      Spells [m₁, m₂] d.month ∧ Spells [d₁, d₂] d.day := by
  have hmonth := d.month_le
  have hday := d.day_le.trans (daysInMonth_le _ _)
  obtain ⟨y₁, y₂, y₃, y₄, hy, hys⟩ := padded_four (n := d.year.toNat) (by omega)
  obtain ⟨m₁, m₂, hm, hms⟩ := padded_two (n := d.month) (by omega)
  obtain ⟨d₁, d₂, hd, hds⟩ := padded_two (n := d.day) (by omega)
  refine ⟨y₁, y₂, y₃, y₄, m₁, m₂, d₁, d₂, ?_, hys, hms, hds⟩
  rw [dateText, String.toList_ofList, yearText, if_pos h, hy, hm, hd]
  rfl

/-- A moment that ISO writes with a year of four digits, to the minute or to the second. -/
structure Moment where
  date : Date
  hour : Nat
  minute : Nat
  second : Option Nat
  year_range : 0 ≤ date.year ∧ date.year ≤ 9999
  hour_lt : hour < 24
  minute_lt : minute < 60
  second_lt : ∀ s ∈ second, s < 60

namespace Moment

variable (m : Moment)

def chars (sep : Char) : List Char :=
  (dateText m.date).toList ++ sep :: (padded 2 m.hour ++ ':' :: (padded 2 m.minute ++ m.second.elim [] fun s => ':' :: padded 2 s))

/-- `YYYY-MM-DD HH:MM` or `YYYY-MM-DD HH:MM:SS`. -/
def text (sep : Char) : String := String.ofList (m.chars sep)

/-- The numbers after the year. -/
def values : List Nat := [m.date.month, m.date.day, m.hour, m.minute] ++ m.second.toList

/-- What a format reads that gives the numbers these names. -/
def fields (l : List Part) : Fields :=
  (l.zip m.values).foldl (fun f (p, n) => f.set p n) (Fields.empty.set .year m.date.year.toNat)

theorem spelled : ∃ y₁ y₂ y₃ y₄ m₁ m₂ d₁ d₂ h₁ h₂ n₁ n₂ tail,
    (∀ sep, m.chars sep =
      y₁ :: y₂ :: y₃ :: y₄ :: '-' :: m₁ :: m₂ :: '-' :: d₁ :: d₂ :: sep :: h₁ :: h₂ :: ':' :: n₁ :: n₂ :: tail) ∧
      (Spells [y₁, y₂, y₃, y₄] m.date.year.toNat ∧ Spells [m₁, m₂] m.date.month ∧ Spells [d₁, d₂] m.date.day) ∧
      (Spells [h₁, h₂] m.hour ∧ Spells [n₁, n₂] m.minute) ∧
      (m.second = none ∧ tail = [] ∨ ∃ s s₁ s₂, m.second = some s ∧ tail = [':', s₁, s₂] ∧ Spells [s₁, s₂] s) := by
  obtain ⟨y₁, y₂, y₃, y₄, m₁, m₂, d₁, d₂, hdate, hday⟩ := dateText_spelled m.year_range
  obtain ⟨h₁, h₂, hh, hhs⟩ := padded_two (n := m.hour) (by have := m.hour_lt; omega)
  obtain ⟨n₁, n₂, hn, hns⟩ := padded_two (n := m.minute) (by have := m.minute_lt; omega)
  rcases hsec : m.second with _ | s
  · refine ⟨y₁, y₂, y₃, y₄, m₁, m₂, d₁, d₂, h₁, h₂, n₁, n₂, [], fun sep => ?_, hday, ⟨hhs, hns⟩, .inl ⟨rfl, rfl⟩⟩
    rw [chars, hdate, hh, hn, hsec]
    rfl
  · obtain ⟨s₁, s₂, hs, hss⟩ := padded_two (n := s) (by have := m.second_lt s hsec; omega)
    refine ⟨y₁, y₂, y₃, y₄, m₁, m₂, d₁, d₂, h₁, h₂, n₁, n₂, [':', s₁, s₂], fun sep => ?_, hday, ⟨hhs, hns⟩,
      .inr ⟨s, s₁, s₂, rfl, rfl, hss⟩⟩
    rw [chars, hdate, hh, hn, hsec, Option.elim_some, hs]
    rfl

variable {m} {sep : Char}

theorem last_digit (m : Moment) (sep : Char) : ∃ c, (m.chars sep).getLast? = some c ∧ c.isDigit = true := by
  obtain ⟨_, _, _, _, _, _, _, _, _, _, n₁, n₂, tail, hchars, -, ⟨-, hn⟩, ⟨-, rfl⟩ | ⟨_, s₁, s₂, -, rfl, hs⟩⟩ := m.spelled
  · exact ⟨n₂, by rw [hchars]; rfl, hn.1 _ (by simp)⟩
  · exact ⟨s₂, by rw [hchars]; rfl, hs.1 _ (by simp)⟩

theorem trim_chars (m : Moment) (sep : Char) : JsonPath.trim (m.chars sep) = m.chars sep := by
  obtain ⟨c, hlast, hc⟩ := m.last_digit sep
  obtain ⟨_, _, _, _, _, _, _, _, _, _, _, _, _, hchars, ⟨hy, -, -⟩, -, -⟩ := m.spelled
  refine JsonPath.trim_of_ends (fun c hc => ?_) fun c' hc' => ?_
  · rw [hchars] at hc
    cases hc
    exact dark_of_digit (hy.1 _ List.mem_cons_self)
  · rw [hlast] at hc'
    cases hc'
    exact dark_of_digit hc

theorem replaceFirst_chars (m : Moment) (hsep : sep = ' ' ∨ sep = 'T') :
    replaceFirst 'T' ' ' (m.chars sep) = m.chars ' ' := by
  have hne {c : Char} (hc : c.isDigit = true) : 'T' ≠ c := by
    rintro rfl
    exact absurd hc (by decide)
  obtain ⟨y₁, y₂, y₃, y₄, m₁, m₂, d₁, d₂, h₁, h₂, n₁, n₂, tail, hchars, ⟨hy, hm, hd⟩, ⟨hh, hn⟩, hs⟩ := m.spelled
  have htail : 'T' ∉ tail := by
    rcases hs with ⟨-, rfl⟩ | ⟨_, s₁, s₂, -, rfl, hs⟩
    · exact List.not_mem_nil
    · simp [hne (hs.1 s₁ (by simp)), hne (hs.1 s₂ (by simp))]
  have hday : 'T' ∉ [y₁, y₂, y₃, y₄, '-', m₁, m₂, '-', d₁, d₂] := by
    simp [hne (hy.1 y₁ (by simp)), hne (hy.1 y₂ (by simp)), hne (hy.1 y₃ (by simp)), hne (hy.1 y₄ (by simp)),
      hne (hm.1 m₁ (by simp)), hne (hm.1 m₂ (by simp)), hne (hd.1 d₁ (by simp)), hne (hd.1 d₂ (by simp))]
  have htime : 'T' ∉ h₁ :: h₂ :: ':' :: n₁ :: n₂ :: tail := by
    simp [hne (hh.1 h₁ (by simp)), hne (hh.1 h₂ (by simp)), hne (hn.1 n₁ (by simp)), hne (hn.1 n₂ (by simp)), htail]
  rw [hchars, hchars]
  rcases hsep with rfl | rfl
  · refine replaceFirst_of_notMem (l := [y₁, y₂, y₃, y₄, '-', m₁, m₂, '-', d₁, d₂] ++ ' ' :: _) ?_
    intro hmem
    rcases List.mem_append.mp hmem with hmem | hmem
    · exact hday hmem
    · exact htime ((List.mem_cons.mp hmem).resolve_left (by decide))
  · exact replaceFirst_append hday _

end Moment

section

variable [Chrono] [Formats]

/-- What `chrono` says of ISO texts without an offset. -/
structure ReadsIso : Prop where
  rfc3339 : ∀ m sep, (sep = ' ' ∨ sep = 'T') → Formats.rfc3339 (Moment.text m sep) = none
  dateTime : ∀ m sep, (sep = ' ' ∨ sep = 'T') → ∀ f ∈ offsetFormats, Formats.dateTime (Moment.text m sep) f = none
  wall : ∀ m : Moment, ∃ t, Formats.fromHmsMilli m.hour m.minute (m.second.getD 0) 0 = some t ∧
    Formats.wall (m.text ' ') "%Y-%m-%d %H:%M:%S%.f" = m.second.map (fun _ => (m.date, t)) ∧
    (m.second = none → Formats.wall (m.text ' ') "%Y-%m-%d %H:%M" = some (m.date, t))
  date : ∀ d : Date, 0 ≤ d.year ∧ d.year ≤ 9999 → Formats.date (dateText d) "%Y-%m-%d" = some d
  time_inj : ∀ h n s h' n' s' t, Formats.fromHmsMilli h n s 0 = some t → Formats.fromHmsMilli h' n' s' 0 = some t →
    h = h' ∧ n = n' ∧ s = s'
  utc_inj : ∀ w w', Formats.andUtc w = Formats.andUtc w' → w = w'

namespace Moment

/-- An ISO text without a zone is a wall clock of the zone asked for. -/
theorem parseDatetime_text (h : ReadsIso) (m : Moment) : ∃ t,
    Formats.fromHmsMilli m.hour m.minute (m.second.getD 0) 0 = some t ∧ ∀ sep zone i, (sep = ' ' ∨ sep = 'T') →
      (parseDatetime (m.text sep) zone = .ok i ↔ zone.instant (m.date, t) = some i) := by
  obtain ⟨t, ht, hseconds, hminutes⟩ := h.wall m
  refine ⟨t, ht, fun sep zone i hsep => ?_⟩
  have hwall : wallOf (m.chars sep) = some (m.date, t) := by
    unfold wallOf
    rw [m.replaceFirst_chars hsep]
    rcases hsec : m.second with _ | s
    · rw [hsec] at hseconds
      simp only [show String.ofList (m.chars ' ') = m.text ' ' from rfl, hseconds, hminutes hsec, Option.map_none]
    · rw [hsec] at hseconds
      simp only [show String.ofList (m.chars ' ') = m.text ' ' from rfl, hseconds, Option.map_some]
  obtain ⟨c, hlast, hc⟩ := m.last_digit sep
  have hstrip {z : Char} (l : List Char) (hz : z.isDigit = false) : stripSuffix (l ++ [z]) (m.chars sep) = none := by
    refine stripSuffix_of_last hlast ?_
    rintro rfl
    rw [hc] at hz
    exact nomatch hz
  have hstripped : (stripSuffix " UTC".toList (m.chars sep)).or
      ((stripSuffix ['Z'] (m.chars sep)).or (stripSuffix ['z'] (m.chars sep))) = none := by
    have hutc : stripSuffix " UTC".toList (m.chars sep) = none := hstrip " UT".toList (by decide)
    have hupper : stripSuffix ['Z'] (m.chars sep) = none := hstrip [] (by decide)
    have hlower : stripSuffix ['z'] (m.chars sep) = none := hstrip [] (by decide)
    rw [hutc, hupper, hlower]
    rfl
  have htrim : trimmed (m.text sep) = m.text sep := by
    rw [trimmed, text, String.toList_ofList, m.trim_chars]
  have hoffset : offsetFormats.findSome? (Formats.dateTime (m.text sep)) = none :=
    List.findSome?_eq_none_iff.mpr (h.dateTime m sep hsep)
  rw [parseDatetime, htrim, h.rfc3339 m sep hsep]
  dsimp only
  rw [hoffset]
  dsimp only
  rw [parseWall]
  simp only [text, String.toList_ofList, hstripped, hwall]
  rcases zone.instant (m.date, t) with _ | i' <;> simp

end Moment

end

namespace Pattern

open Moment

variable {p : Pattern} {m : Moment} {sep : Char} {f : Fields}

theorem read_text (p : Pattern) (m : Moment) (sep : Char) : p.read (m.text sep) = readParts p.parts (m.chars sep) .empty := by
  rw [read, Moment.text, String.toList_ofList, m.trim_chars]

/-- A format that reads an ISO text follows it. -/
theorem isoFields_of_read (h : Accepted .datetime p.parts) (hsep : sep = ' ' ∨ sep = 'T')
    (hread : p.read (m.text sep) = some f) :
    ∃ l, isoFields p.parts = some l ∧ l.length = m.values.length ∧ f = m.fields l := by
  obtain ⟨y₁, y₂, y₃, y₄, m₁, m₂, d₁, d₂, h₁, h₂, n₁, n₂, tail, hchars, ⟨hy, hm, hd⟩, ⟨hh, hn⟩, hs⟩ := m.spelled
  have hnot : sep.isDigit = false ∧ sep ≠ 'Z' ∧ sep ≠ 'z' := by
    rcases hsep with rfl | rfl <;> decide
  have htail : ∀ c ∈ tail.head?, c.isDigit = false := by
    rcases hs with ⟨-, rfl⟩ | ⟨_, _, _, -, rfl, -⟩
    · exact fun c hc => nomatch hc
    · intro c hc
      cases hc
      rfl
  have hyear : hasYear (y₃ :: y₄ :: '-' :: m₁ :: m₂ :: '-' :: d₁ :: d₂ :: sep :: h₁ :: h₂ :: ':' :: n₁ :: n₂ :: tail) = false := by
    rcases hs with ⟨-, rfl⟩ | ⟨_, _, _, -, rfl, -⟩ <;> simp [hasYear, hnot.1]
  rw [read_text, hchars] at hread
  obtain ⟨a, b, ps, heq, ha, hb, hread⟩ := day_of_read h (by decide) (hy.1 _ (by simp)) (hm.1 _ (by simp))
    (hd.1 _ (by simp)) (fun c hc => by cases hc; exact hnot.1) hyear hread
  obtain ⟨c, d, rest, rfl, hc, hd', hread⟩ := time_of_read h heq hnot (hh.1 _ (by simp)) (hn.1 _ (by simp)) htail hread
  have hfields : ((((Fields.empty.set .year m.date.year.toNat).set a m.date.month).set b m.date.day).set c m.hour).set d m.minute =
      ((((Fields.empty.set .year (digitsValue [y₁, y₂, y₃, y₄])).set a (digitsValue [m₁, m₂])).set b
        (digitsValue [d₁, d₂])).set c (digitsValue [h₁, h₂])).set d (digitsValue [n₁, n₂]) := by
    rw [hy.2, hm.2, hd.2, hh.2, hn.2]
  rw [← hfields] at hread
  rcases hs with ⟨hsec, rfl⟩ | ⟨s, s₁, s₂, hsec, rfl, hss⟩
  · obtain ⟨htrailing, rfl⟩ := readParts_empty hread
    refine ⟨[a, b, c, d], ?_, by simp [values, hsec], by simp [fields, values, hsec]⟩
    rw [heq]
    exact isoFields_four hsep ⟨ha, hb, hc, hd'⟩ htrailing
  · obtain ⟨e, rest, rfl, he, htrailing, rfl⟩ := seconds_of_read
      (fun c hc => h.not_digit (heq ▸ List.mem_append_right _ (List.mem_append_right _ hc))) (hss.1 _ (by simp)) hread
    refine ⟨[a, b, c, d, e], ?_, by simp [values, hsec], by simp [fields, values, hsec, hss.2]⟩
    rw [heq]
    exact isoFields_five hsep ⟨ha, hb, hc, hd'⟩ he htrailing

/-- A format that follows ISO texts reads them. -/
theorem read_of_isoFields {l : List Part} (h : isoFields p.parts = some l) (hlen : l.length = m.values.length) :
    ∃ sep, (sep = ' ' ∨ sep = 'T') ∧ p.read (m.text sep) = some (m.fields l) := by
  obtain ⟨y₁, y₂, y₃, y₄, m₁, m₂, d₁, d₂, h₁, h₂, n₁, n₂, tail, hchars, ⟨hy, hm, hd⟩, ⟨hh, hn⟩, hs⟩ := m.spelled
  obtain ⟨a, b, sep, c, d, ps, heq, hsep, ⟨ha, hb, hc, hd'⟩, hl⟩ := isoFields_some h
  refine ⟨sep, hsep, ?_⟩
  rw [read_text, hchars, heq, readParts_year_cons hy.1, readParts_sep_cons,
    readParts_two_cons ha (hm.1 _ (by simp)) (hm.1 _ (by simp)), readParts_sep_cons,
    readParts_two_cons hb (hd.1 _ (by simp)) (hd.1 _ (by simp)), readParts_sep_cons,
    readParts_two_cons hc (hh.1 _ (by simp)) (hh.1 _ (by simp)), readParts_sep_cons,
    readParts_two_cons hd' (hn.1 _ (by simp)) (hn.1 _ (by simp)), hy.2, hm.2, hd.2, hh.2, hn.2]
  rcases hl with ⟨htrailing, rfl⟩ | ⟨e, rest, rfl, he, htrailing, rfl⟩
  · rcases hs with ⟨hsec, rfl⟩ | ⟨s, s₁, s₂, hsec, -, -⟩
    · rw [readParts_trailing htrailing]
      simp [fields, values, hsec]
    · simp [values, hsec] at hlen
  · rcases hs with ⟨hsec, -⟩ | ⟨s, s₁, s₂, hsec, rfl, hss⟩
    · simp [values, hsec] at hlen
    · rw [readParts_sep_cons, readParts_two_cons he (hss.1 _ (by simp)) (hss.1 _ (by simp)), readParts_trailing htrailing, hss.2]
      simp [fields, values, hsec]

theorem mem_of_isoFields {parts l : List Part} (h : isoFields parts = some l) {q : Part} (hq : q.twoDigit = true)
    (hmem : q ∈ parts) : q ∈ l := by
  have hfield := Part.isField_of_twoDigit hq
  have hyear : q ≠ .year := by
    rintro rfl
    cases hq
  have hsep (c : Char) : q ≠ .sep c := by
    rintro rfl
    cases hq
  have htrailing {ps : List Part} (hps : trailing ps = true) : q ∉ ps := by
    intro hmem
    rw [trailing, decide_eq_true_eq] at hps
    rcases hps with rfl | hps
    · cases hmem
    · rw [optional, Bool.and_eq_true, List.all_eq_true] at hps
      have := hps.1 q hmem
      cases q <;> first | exact absurd this (by decide) | cases hq
  obtain ⟨a, b, sep, c, d, ps, rfl, -, -, ⟨ht, rfl⟩ | ⟨e, rest, rfl, -, ht, rfl⟩⟩ := isoFields_some h
  · simpa [hyear, hsep, htrailing ht] using hmem
  · simpa [hyear, hsep, htrailing ht] using hmem

theorem twoDigit_of_isoFields {parts l : List Part} (h : isoFields parts = some l) : ∀ q ∈ l, q.twoDigit = true := by
  obtain ⟨a, b, sep, c, d, ps, -, -, ⟨ha, hb, hc, hd⟩, ⟨-, rfl⟩ | ⟨e, rest, -, he, -, rfl⟩⟩ := isoFields_some h
  · simp [ha, hb, hc, hd]
  · simp [ha, hb, hc, hd, he]

end Pattern

namespace Moment

variable {m : Moment} {l : List Part}

theorem offset_fields (m : Moment) (l : List Part) : (m.fields l).offset = none := by
  have hset (f : Fields) (q : Part) (n : Nat) : (f.set q n).offset = f.offset := by cases q <;> rfl
  have hfold (ns : List Nat) (f : Fields) :
      ((l.zip ns).foldl (fun f (p, n) => f.set p n) f).offset = f.offset := by
    induction l generalizing ns f with
    | nil => rfl
    | cons q l ih =>
        cases ns with
        | nil => rfl
        | cons n ns => exact (ih ns _).trans (hset f q n)
  exact (hfold _ _).trans (hset _ _ _)

variable [Chrono] [Formats]

theorem wallOf_some {f : Fields} {y mo da h n : Nat} {d : Date} {t : Chrono.NaiveTime}
    (hf : f.year = some y ∧ f.month = some mo ∧ f.day = some da ∧ f.hour = some h ∧ f.minute = some n ∧ f.millis = none)
    (hs : f.second.getD 0 < 60) (hd : Date.ofYmd? y mo da = some d)
    (ht : Formats.fromHmsMilli h n (f.second.getD 0) 0 = some t) : Pattern.wallOf f = some (d, t) := by
  obtain ⟨hy, hmo, hda, hh, hn, hms⟩ := hf
  have hdate : Pattern.dateOf f = some d := by
    rw [Pattern.dateOf, hy, hmo, hda]
    exact hd
  have htime : Pattern.timeOf f = some t := by
    rw [Pattern.timeOf, hh, hn, hms]
    show (Formats.fromHmsMilli h n (f.second.getD 0) 0).bind _ = _
    rw [ht]
    exact if_pos hs
  rw [Pattern.wallOf, hdate, htime]
  rfl

/-- A format that gives each number its own name reads the moment. -/
theorem wallOf_fields (hl : l <+: [.month, .day, .hour, .minute, .second]) (hlen : l.length = m.values.length)
    {t : Chrono.NaiveTime} (ht : Formats.fromHmsMilli m.hour m.minute (m.second.getD 0) 0 = some t) :
    Pattern.wallOf (m.fields l) = some (m.date, t) := by
  have hdate : Date.ofYmd? (m.date.year.toNat : Nat) m.date.month m.date.day = some m.date := by
    rw [Int.toNat_of_nonneg m.year_range.1]
    exact dif_pos ⟨m.date.month_pos, m.date.month_le, m.date.day_pos, m.date.day_le⟩
  have hsecond : m.second.getD 0 < 60 := by
    rcases hsec : m.second with _ | s
    · decide
    · exact m.second_lt s hsec
  have hl : l = [Part.month, .day, .hour, .minute, .second].take m.values.length :=
    hlen ▸ List.prefix_iff_eq_take.mp hl
  have hfields : (m.fields l).second = m.second ∧ (m.fields l).year = some m.date.year.toNat ∧
      (m.fields l).month = some m.date.month ∧ (m.fields l).day = some m.date.day ∧ (m.fields l).hour = some m.hour ∧
      (m.fields l).minute = some m.minute ∧ (m.fields l).millis = none := by
    rw [hl, fields, values]
    rcases m.second with _ | s <;> exact ⟨rfl, rfl, rfl, rfl, rfl, rfl, rfl⟩
  exact wallOf_some hfields.2 (hfields.1 ▸ hsecond) hdate (hfields.1 ▸ ht)

end Moment

section

/-- 3 February 2001, at five past four: no two of its numbers are equal. -/
def Moment.february (second : Option Nat) (h : ∀ s ∈ second, s < 60) : Moment :=
  ⟨.of 2001 2 3 (by decide), 4, 5, second, by decide, by decide, by decide, h⟩

/-- What a format reads of that moment is a moment, the same one where the numbers have
their own names only. -/
def Tells (l : List Part) (f : Fields) (second : Nat) : Prop :=
  (∀ q ∈ [f.month, f.day, f.hour, f.minute], q ∈ (List.range' 2 5).map some) ∧
    f.year = some 2001 ∧ f.millis = none ∧ f.second.getD 0 < 60 ∧
      (f.month = some 2 ∧ f.day = some 3 ∧ f.hour = some 4 ∧ f.minute = some 5 ∧ f.second.getD 0 = second →
        l <+: [.month, .day, .hour, .minute, .second])

instance (l : List Part) (f : Fields) (second : Nat) : Decidable (Tells l f second) := by
  unfold Tells
  infer_instance

def twoDigits : List Part := [.month, .day, .hour, .minute, .second]

theorem mem_twoDigits {q : Part} (h : q.twoDigit = true) : q ∈ twoDigits := by
  cases q with
  | year | millis | offset | sep => exact nomatch h
  | _ => decide

theorem tells_minutes : ∀ a ∈ twoDigits, ∀ b ∈ twoDigits, ∀ c ∈ twoDigits, ∀ d ∈ twoDigits,
    (∀ q ∈ [Part.month, .day, .hour, .minute], q ∈ [a, b, c, d]) →
      Tells [a, b, c, d] ((Moment.february none nofun).fields [a, b, c, d]) 0 := by
  intro a ha
  simp only [twoDigits, List.mem_cons, List.not_mem_nil, or_false] at ha
  rcases ha with rfl | rfl | rfl | rfl | rfl <;> decide +kernel

theorem tells_seconds : ∀ a ∈ twoDigits, ∀ b ∈ twoDigits, ∀ c ∈ twoDigits, ∀ d ∈ twoDigits, ∀ e ∈ twoDigits,
    (∀ q ∈ [Part.month, .day, .hour, .minute], q ∈ [a, b, c, d, e]) →
      Tells [a, b, c, d, e] ((Moment.february (some 6) (by decide)).fields [a, b, c, d, e]) 6 := by
  intro a ha
  simp only [twoDigits, List.mem_cons, List.not_mem_nil, or_false] at ha
  rcases ha with rfl | rfl | rfl | rfl | rfl <;> decide +kernel

end

section

variable [Chrono] [Formats] {p : Pattern}

/-- Whether a session under the format reads every ISO text as ISO. -/
def IsoStays (p : Pattern) : Prop :=
  ∀ (m : Moment) (sep : Char) (zone : Zone) (t : Chrono.DateTime), (sep = ' ' ∨ sep = 'T') →
    parseDatetime (m.text sep) zone = .ok t → readDatetime (some p) (m.text sep) zone = .ok t

theorem isoStays_of_plain (h : ReadsIso) (hp : Pattern.Accepted .datetime p.parts) (hplain : Pattern.Plain p.parts) :
    IsoStays p := by
  intro m sep zone t hsep hiso
  rw [readDatetime]
  rcases hread : p.read (m.text sep) with _ | f
  · rw [Pattern.readDatetime, hread]
    dsimp only [Option.bind_eq_bind, Option.bind_none]
    rw [hiso]
  · obtain ⟨l, hl, hlen, rfl⟩ := Pattern.isoFields_of_read hp hsep hread
    obtain ⟨w, hw, hparse⟩ := m.parseDatetime_text h
    have hwall := Moment.wallOf_fields (hplain l hl) hlen hw
    have hinstant := (hparse sep zone t hsep).mp hiso
    rw [Pattern.readDatetime, hread]
    dsimp only [Option.bind_eq_bind, Option.bind_some]
    rw [hwall]
    dsimp only [Option.bind_some]
    rw [m.offset_fields, hinstant]
    rfl

/-- Where the numbers have their own names only, the moment is read as another one. -/
theorem prefix_of_tells (h : ReadsIso) (hstays : IsoStays p) {m : Moment} {l : List Part} (hl : Pattern.isoFields p.parts = some l)
    (hlen : l.length = m.values.length) (hdate : m.date.month = 2 ∧ m.date.day = 3 ∧ m.hour = 4 ∧ m.minute = 5)
    (htells : Tells l (m.fields l) (m.second.getD 0)) : l <+: [.month, .day, .hour, .minute, .second] := by
  obtain ⟨sep, hsep, hread⟩ := Pattern.read_of_isoFields hl hlen
  obtain ⟨w, hw, hparse⟩ := m.parseDatetime_text h
  obtain ⟨hdigits, hyear, hmillis, hsecond, hprefix⟩ := htells
  have hsome {o : Option Nat} (ho : o ∈ [(m.fields l).month, (m.fields l).day, (m.fields l).hour, (m.fields l).minute]) :
      ∃ n, o = some n ∧ 2 ≤ n ∧ n ≤ 6 := by
    obtain ⟨n, hn, rfl⟩ := List.mem_map.mp (hdigits o ho)
    rw [List.mem_range'_1] at hn
    exact ⟨n, rfl, by omega, by omega⟩
  obtain ⟨mo, hmo, hmo2, hmo6⟩ := hsome (o := (m.fields l).month) (by simp)
  obtain ⟨da, hda, hda2, hda6⟩ := hsome (o := (m.fields l).day) (by simp)
  obtain ⟨hr, hhr, hhr2, hhr6⟩ := hsome (o := (m.fields l).hour) (by simp)
  obtain ⟨mi, hmi, hmi2, hmi6⟩ := hsome (o := (m.fields l).minute) (by simp)
  have hvalid : 1 ≤ mo ∧ mo ≤ 12 ∧ 1 ≤ da ∧ da ≤ daysInMonth ((2001 : Nat) : Int) mo :=
    ⟨by omega, by omega, by omega, (by omega : da ≤ 28).trans (daysInMonth_ge _ _)⟩
  obtain ⟨w', hw', -⟩ := h.wall ⟨m.date, hr, mi, some ((m.fields l).second.getD 0), m.year_range, by omega, by omega,
    fun s hs => (Option.some.inj hs).symm ▸ hsecond⟩
  have hwall := Moment.wallOf_some ⟨hyear, hmo, hda, hhr, hmi, hmillis⟩ hsecond (dif_pos hvalid) hw'
  have hthis := hstays m sep .utc _ hsep ((hparse sep .utc _ hsep).mpr rfl)
  rw [readDatetime, Pattern.readDatetime, hread] at hthis
  dsimp only [Option.bind_eq_bind, Option.bind_some] at hthis
  rw [hwall] at hthis
  dsimp only [Option.bind_some] at hthis
  rw [m.offset_fields] at hthis
  have hsame := h.utc_inj _ _ (Except.ok.inj hthis)
  have hmonth : mo = m.date.month := congrArg (fun w : Wall => w.1.month) hsame
  have hday : da = m.date.day := congrArg (fun w : Wall => w.1.day) hsame
  have htime : w' = w := congrArg (fun w : Wall => w.2) hsame
  obtain ⟨hhour, hminute, hsec⟩ := h.time_inj _ _ _ _ _ _ _ hw' (htime ▸ hw)
  refine hprefix ⟨?_, ?_, ?_, ?_, hsec⟩
  · rw [hmo, hmonth, hdate.1]
  · rw [hda, hday, hdate.2.1]
  · exact hhr.trans (congrArg some (hhour.trans hdate.2.2.1))
  · exact hmi.trans (congrArg some (hminute.trans hdate.2.2.2))

theorem plain_of_isoStays (h : ReadsIso) (hp : Pattern.Accepted .datetime p.parts) (hstays : IsoStays p) :
    Pattern.Plain p.parts := by
  intro l hl
  have hneeded : ∀ q ∈ [Part.month, .day, .hour, .minute], q ∈ l := by
    intro q hq
    have hmem : ∀ q ∈ [Part.month, .day, .hour, .minute], q.twoDigit = true ∧ q ∈ Pattern.needed .datetime := by decide
    exact Pattern.mem_of_isoFields hl (hmem q hq).1 (hp.needed q (hmem q hq).2)
  have htwo {q : Part} (hq : q ∈ l) : q ∈ twoDigits := mem_twoDigits (Pattern.twoDigit_of_isoFields hl q hq)
  obtain ⟨a, b, _, c, d, _, -, -, -, ⟨-, rfl⟩ | ⟨e, _, -, -, -, rfl⟩⟩ := Pattern.isoFields_some hl
  · exact prefix_of_tells h hstays (m := Moment.february none nofun) hl rfl ⟨rfl, rfl, rfl, rfl⟩
      (tells_minutes a (htwo (by simp)) b (htwo (by simp)) c (htwo (by simp)) d (htwo (by simp)) hneeded)
  · exact prefix_of_tells h hstays (m := Moment.february (some 6) (by decide)) hl rfl ⟨rfl, rfl, rfl, rfl⟩
      (tells_seconds a (htwo (by simp)) b (htwo (by simp)) c (htwo (by simp)) d (htwo (by simp)) e (htwo (by simp)) hneeded)

theorem parseDate_text (h : ReadsIso) {d : Date} (hd : 0 ≤ d.year ∧ d.year ≤ 9999) : parseDate (dateText d) = .ok d := by
  rw [parseDate, trimmed_of_dark fun c => dark_dateText, h.date d hd]

omit [Chrono] [Formats] in
/-- The fields of a format of dates that starts with the year are those of ISO. -/
theorem month_day_of_accepted {a b : Part} {ps : List Part}
    (hp : Pattern.Accepted .date ([.year, .sep '-', a, .sep '-', b] ++ ps)) (ha : a.twoDigit = true) (hb : b.twoDigit = true)
    (hps : Pattern.trailing ps = true) : a = .month ∧ b = .day := by
  have hnil : ps = [] := by
    by_contra hne
    have hopt : Pattern.optional ps = true := by simpa [Pattern.trailing, hne] using hps
    have hoffset : .offset ∈ ps := of_decide_eq_true ((Bool.and_eq_true _ _).mp hopt).2
    exact absurd (hp.allowed .offset (List.mem_append_right _ hoffset) rfl) (by decide)
  subst hnil
  have hmonth := hp.needed .month (by decide)
  have hday := hp.needed .day (by decide)
  have horder := hp.month_day
  simp only [List.append_nil, List.mem_cons, List.not_mem_nil, reduceCtorEq, or_false, false_or] at hmonth hday
  rcases hmonth with rfl | rfl
  · rcases hday with hday | rfl
    · cases hday
    · exact ⟨rfl, rfl⟩
  · rcases hday with rfl | hday
    · exact absurd (horder rfl) (by decide)
    · cases hday

theorem readDate_text (h : ReadsIso) (hp : Pattern.Accepted .date p.parts) {d : Date} (hd : 0 ≤ d.year ∧ d.year ≤ 9999) :
    readDate (some p) (dateText d) = .ok d := by
  rw [readDate]
  rcases hread : p.read (dateText d) with _ | f
  · rw [Pattern.readDate, hread]
    dsimp only [Option.bind_none]
    rw [parseDate_text h hd]
  · have htext : p.read (dateText d) = Pattern.readParts p.parts (dateText d).toList .empty := by
      rw [Pattern.read, JsonPath.trim_of_dark fun c => dark_dateText]
    obtain ⟨y₁, y₂, y₃, y₄, m₁, m₂, d₁, d₂, hchars, hy, hm, hd'⟩ := dateText_spelled hd
    have hparts := hread
    rw [htext, hchars] at hparts
    obtain ⟨a, b, ps, heq, ha, hb, hps⟩ := Pattern.day_of_read (s := []) hp (by decide) (hy.1 _ (by simp)) (hm.1 _ (by simp))
      (hd'.1 _ (by simp)) (by simp) (by simp [Pattern.hasYear]) hparts
    obtain ⟨htrailing, rfl⟩ := Pattern.readParts_empty hps
    obtain ⟨rfl, rfl⟩ := month_day_of_accepted (heq ▸ hp) ha hb htrailing
    have hdate : Date.ofYmd? (d.year.toNat : Nat) d.month d.day = some d := by
      rw [Int.toNat_of_nonneg hd.1]
      exact dif_pos ⟨d.month_pos, d.month_le, d.day_pos, d.day_le⟩
    rw [Pattern.readDate, hread, hy.2, hm.2, hd'.2]
    dsimp only [Option.bind_some]
    rw [show Pattern.dateOf _ = Date.ofYmd? (d.year.toNat : Nat) d.month d.day from rfl, hdate]

/-- Under which formats of a session ISO texts stay what they are. -/
theorem iso_readable (h : ReadsIso) :
    (∀ text p, Pattern.parse .datetime text = .ok p → (IsoStays p ↔ Pattern.Plain p.parts)) ∧
      ∀ text p, Pattern.parse .date text = .ok p → ∀ d : Date, 0 ≤ d.year ∧ d.year ≤ 9999 →
        parseDate (dateText d) = .ok d ∧ readDate (some p) (dateText d) = .ok d :=
  ⟨fun _ _ hp => ⟨plain_of_isoStays h (Pattern.parse_ok hp), isoStays_of_plain h (Pattern.parse_ok hp)⟩,
    fun _ _ hp _ hd => ⟨parseDate_text h hd, readDate_text h (Pattern.parse_ok hp) hd⟩⟩

end

section Samples

/-- Hours, minutes, seconds and milliseconds. -/
local instance wallChrono : Chrono where
  DateTime := Date × Nat × Nat × Nat × Nat
  NaiveTime := Nat × Nat × Nat × Nat
  decEqDateTime := inferInstance
  decEqNaiveTime := inferInstance
  iso _ := ""
  timeText _ := ""
  parseDatetime _ := none
  parseTime _ := none

local instance wallDecEq : DecidableEq Chrono.DateTime := Chrono.decEqDateTime

/-- Reads a wall clock to the second or to the minute. -/
def readWall (l : List Char) (format : String) : Option (Date × Nat × Nat × Nat × Nat) :=
  if format = "%Y-%m-%d %H:%M:%S%.f" ∧ l.length = 19 ∨ format = "%Y-%m-%d %H:%M" ∧ l.length = 16 then
    (KivaDb.readDate (l.take 10)).map fun d =>
      (d, digitsValue ((l.drop 11).take 2), digitsValue ((l.drop 14).take 2), digitsValue (l.drop 17), 0)
  else none

local instance wallFormats : Formats where
  Tz := Empty
  tz _ := none
  tzName t := nomatch t
  offsetText _ := "+00:00"
  rfc3339 _ := none
  dateTime _ _ := none
  wall s f := readWall s.toList f
  date s f := if f = "%Y-%m-%d" then KivaDb.readDate s.toList else none
  time _ _ := none
  midnight := (0, 0, 0, 0)
  hour t := t.1
  minute t := t.2.1
  second t := t.2.2.1
  nanosecond t := t.2.2.2 * 1000000
  withNanosecond t n := some (t.1, t.2.1, t.2.2.1, n / 1000000)
  fromHmsMilli h m s ms := if h < 24 ∧ m < 60 ∧ s < 60 ∧ ms < 1000 then some (h, m, s, ms) else none
  andUtc w := w
  machineInstant w := some w
  tzInstant t := nomatch t
  fixedInstant _ w := some w
  machineOffset _ := 0
  tzOffset t := nomatch t
  wallAt _ t := t

theorem readWall_text (m : Moment) (format : String) : Formats.wall (m.text ' ') format =
    if format = "%Y-%m-%d %H:%M:%S%.f" ∧ m.second.isSome ∨ format = "%Y-%m-%d %H:%M" ∧ m.second = none then
      some (m.date, m.hour, m.minute, m.second.getD 0, 0) else none := by
  obtain ⟨y₁, y₂, y₃, y₄, m₁, m₂, d₁, d₂, hdate, -⟩ := dateText_spelled m.year_range
  have htake : (m.chars ' ').take 10 = (dateText m.date).toList := by
    rw [Moment.chars, List.take_left' (by rw [hdate]; rfl)]
  show readWall (m.text ' ').toList format = _
  rw [Moment.text, String.toList_ofList, readWall, htake, readDate_dateText]
  obtain ⟨_, _, _, _, _, _, _, _, h₁, h₂, n₁, n₂, tail, hchars, -, ⟨hh, hn⟩, hs⟩ := m.spelled
  rw [hchars]
  rcases hs with ⟨hsec, rfl⟩ | ⟨s, s₁, s₂, hsec, rfl, hs⟩
  · have hzero : digitsValue [] = 0 := rfl
    simp [hsec, hh.2, hn.2, hzero]
  · simp [hsec, hh.2, hn.2, hs.2]

theorem walls_readIso : ReadsIso where
  rfc3339 _ _ _ := rfl
  dateTime _ _ _ _ _ := rfl
  wall m := by
    have hsecond : m.second.getD 0 < 60 := by
      rcases hsec : m.second with _ | s
      · decide
      · exact m.second_lt s hsec
    refine ⟨(m.hour, m.minute, m.second.getD 0, 0), if_pos ⟨m.hour_lt, m.minute_lt, hsecond, by decide⟩, ?_, fun hsec => ?_⟩
    · rw [readWall_text]
      rcases m.second with _ | s <;> simp
    · rw [readWall_text, hsec]
      simp
  date d _ := (if_pos rfl).trans (readDate_dateText d)
  time_inj h n s h' n' s' t ht ht' := by
    obtain ⟨-, ht⟩ := Option.ite_none_right_eq_some.mp ht
    obtain ⟨-, ht'⟩ := Option.ite_none_right_eq_some.mp ht'
    cases ht.trans ht'.symm
    exact ⟨rfl, rfl, rfl⟩
  utc_inj _ _ h := h

theorem iso_readable_walls :
    (∀ text p, Pattern.parse .datetime text = .ok p → (IsoStays p ↔ Pattern.Plain p.parts)) ∧
      ∀ text p, Pattern.parse .date text = .ok p → ∀ d : Date, 0 ≤ d.year ∧ d.year ≤ 9999 →
        parseDate (dateText d) = .ok d ∧ readDate (some p) (dateText d) = .ok d :=
  iso_readable walls_readIso

def march : Moment :=
  ⟨.of 2026 3 4 (by decide), 5, 6, none, by decide, by decide, by decide, nofun⟩

/-- The year first, but then the hour. -/
def hoursFirst : Pattern :=
  ⟨"YYYY-HH-MM DD:mm", [.year, .sep '-', .hour, .sep '-', .month, .sep ' ', .day, .sep ':', .minute]⟩

theorem hoursFirst_march : Pattern.parse .datetime "YYYY-HH-MM DD:mm" = .ok hoursFirst ∧
    march.text ' ' = "2026-03-04 05:06" ∧
    parseDatetime (march.text ' ') .utc = .ok (⟨2026, 3, 4, by decide, by decide, by decide, by decide⟩, 5, 6, 0, 0) ∧
    readDatetime (some hoursFirst) (march.text ' ') .utc =
      .ok (⟨2026, 4, 5, by decide, by decide, by decide, by decide⟩, 3, 6, 0, 0) := by
  refine ⟨?_, ?_, ?_, ?_⟩
  · exact Lib.Fallible.toOption_eq_some.mp (by decide +kernel)
  · decide +kernel
  · exact Lib.Fallible.toOption_eq_some.mp (by decide +kernel)
  · exact Lib.Fallible.toOption_eq_some.mp (by decide +kernel)

end Samples

end Time

end KivaDb
