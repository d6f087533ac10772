import KivaDb.Extended

namespace KivaDb

open Lib.Fallible Lib.Calendar Time

theorem JsonPath.dropWhile_of_dark {l : List Char} (h : ∀ c ∈ l, isWhitespace c = false) :
    l.dropWhile isWhitespace = l := by
  cases l with
  | nil => rfl
  | cons c cs => rw [List.dropWhile_cons_of_neg (by simp [h c List.mem_cons_self])]

theorem JsonPath.trim_of_dark {l : List Char} (h : ∀ c ∈ l, isWhitespace c = false) : trim l = l := by
  rw [trim, dropWhile_of_dark h, dropWhile_of_dark fun c hc => h c (List.mem_reverse.mp hc), List.reverse_reverse]

theorem Number.asI64_ofInt (i : Int64) : (Number.ofInt i).asI64 = some i := by
  unfold Number.ofInt
  split
  · next h =>
      have hlt : i.toUInt64.toNat < 2 ^ 63 := by
        rw [Int64.toNat_toUInt64_of_le h]
        have := i.toInt_lt
        show i.toInt.toNat < 2 ^ 63
        omega
      rw [Number.asI64, if_pos hlt, Int64.toInt64_toUInt64]
  · rfl

theorem dark_of_all {l : List Char} (h : (l.all fun c => !JsonPath.isWhitespace c) = true) :
    ∀ c ∈ l, JsonPath.isWhitespace c = false := by
  intro c hc
  simpa using List.all_eq_true.mp h c hc

theorem dark_of_digit {c : Char} (h : c.isDigit = true) : JsonPath.isWhitespace c = false := by
  simp only [Char.isDigit, Bool.and_eq_true, decide_eq_true_eq] at h
  have h1 : 48 ≤ c.toNat := h.1
  have h2 : c.toNat ≤ 57 := h.2
  simp only [JsonPath.isWhitespace, Bool.or_eq_false_iff, Bool.and_eq_false_iff, beq_eq_false_iff_ne,
    decide_eq_false_iff_not]
  omega

namespace Decimal

theorem dark_text {d : Decimal} {c : Char} (h : c ∈ d.text.toList) : JsonPath.isWhitespace c = false := by
  rw [toList_text, List.mem_append, List.mem_append] at h
  rcases h with (h | h) | h
  · unfold sign at h
    split at h
    · rw [List.mem_singleton.mp h]
      decide
    · exact nomatch h
  · exact dark_of_digit (isDigit_whole h)
  · unfold fraction at h
    split at h
    · exact nomatch h
    · rcases List.mem_cons.mp h with rfl | h
      · decide
      · exact dark_of_digit (isDigit_frac h)

variable [ExactDecimals]

omit [ExactDecimals] in
theorem unsigned_text (d : Decimal) : unsigned d.text.toList = d.whole ++ d.fraction := by
  rw [toList_text, sign]
  split
  · rfl
  · obtain ⟨c, cs, hw⟩ := List.exists_cons_of_ne_nil (whole_ne_nil (d := d))
    have hc : c ≠ '-' := by
      rintro rfl
      exact absurd (isDigit_whole (hw ▸ List.mem_cons_self)) (by decide)
    rw [List.nil_append, hw, List.cons_append, unsigned.eq_2]
    rintro rest heq
    exact hc (List.cons.inj heq).1

omit [ExactDecimals] in
theorem isDigits_of {p : List Char} (hne : p ≠ []) (h : ∀ c ∈ p, c.isDigit = true) : isDigits p = true := by
  rw [isDigits, decide_eq_true_eq]
  exact ⟨hne, List.all_eq_true.mpr h⟩

theorem parse_text {d : Decimal} (h : ExactDecimals.fromStrExact d.text = some d) : parse d.text = .ok d := by
  have hpoint : ∀ c ∈ d.whole, decide (c ≠ '.') = true := by
    intro c hc
    refine decide_eq_true ?_
    rintro rfl
    exact absurd (isDigit_whole hc) (by decide)
  have hwhole : (d.whole ++ d.fraction).takeWhile (· ≠ '.') = d.whole := by
    rw [List.takeWhile_append_of_pos hpoint, fraction]
    split
    · simp
    · simp
  have hdigits : isDigits d.whole = true := isDigits_of whole_ne_nil fun _ => isDigit_whole
  have hfrac : (pointed (d.whole ++ d.fraction)).any (fun f => decide ¬ isDigits f) = false := by
    rw [pointed, List.dropWhile_append_of_pos hpoint, fraction]
    by_cases hs : d.scale = 0
    · rw [if_pos hs]
      rfl
    · have hne : d.frac ≠ [] := by
        intro hnil
        exact hs (length_frac.symm.trans (congrArg List.length hnil))
      rw [if_neg hs, List.dropWhile_cons_of_neg (by simp)]
      simp [isDigits_of hne fun _ => isDigit_frac]
  rw [parse, JsonPath.trim_of_dark fun c => dark_text, unsigned_text]
  simp only [hwhole]
  rw [if_neg, String.ofList_toList, h]
  rw [hdigits, hfrac]
  simp

end Decimal

namespace Time

theorem trimmed_of_dark {s : String} (h : ∀ c ∈ s.toList, JsonPath.isWhitespace c = false) : trimmed s = s := by
  rw [trimmed, JsonPath.trim_of_dark h, String.ofList_toList]

theorem dark_dateText {d : Date} {c : Char} (h : c ∈ (dateText d).toList) : JsonPath.isWhitespace c = false := by
  have hpadded {width n : Nat} (h : c ∈ padded width n) : JsonPath.isWhitespace c = false :=
    dark_of_digit (isDigit_of_mem_padded h)
  have hdash {width n : Nat} (h : c ∈ '-' :: padded width n) : JsonPath.isWhitespace c = false := by
    rcases List.mem_cons.mp h with rfl | h
    · decide
    · exact hpadded h
  rw [dateText, String.toList_ofList, List.mem_append, List.mem_append] at h
  rcases h with (h | h) | h
  · unfold yearText at h
    split at h
    · exact hpadded h
    · rcases List.mem_cons.mp h with rfl | h
      · split <;> decide
      · exact hpadded h
  · exact hdash h
  · exact hdash h

end Time

section

variable [Chrono] [Clocks] [Formats] [ExactDecimals]

/-- What `chrono` and `rust_decimal` say of the texts they write: they read each of them
back, under the formats that take it. -/
structure ReadsBack : Prop where
  decimal : ∀ d : Decimal, ExactDecimals.fromStrExact d.text = some d
  date : ∀ d, Kdoc.inRange d = true → Formats.date (dateText d) "%Y-%m-%d" = some d
  time : ∀ t, Kdoc.wholeMs (Clocks.timeNanosecond t) = true → Formats.time (Chrono.timeText t) "%H:%M:%S%.f" = some t
  time_dark : ∀ t, ∀ c ∈ (Chrono.timeText t).toList, JsonPath.isWhitespace c = false
  nanosecond : ∀ t, Formats.withNanosecond t (Clocks.timeNanosecond t) = some t
  iso_dark : ∀ t, ∀ c ∈ (Chrono.iso t).toList, JsonPath.isWhitespace c = false
  rfc3339 : ∀ t s, Kdoc.wholeMs (Clocks.nanosecond t) = true → Formats.rfc3339 (Chrono.iso t) = some s → s = t
  offset : ∀ t s, ∀ f ∈ offsetFormats, Kdoc.wholeMs (Clocks.nanosecond t) = true → Formats.dateTime (Chrono.iso t) f = some s → s = t
  wall : ∀ t, Kdoc.wholeMs (Clocks.nanosecond t) = true → ∃ s w, (Chrono.iso t).toList = s ++ ['Z'] ∧
    Formats.wall (String.ofList (replaceFirst 'T' ' ' s)) "%Y-%m-%d %H:%M:%S%.f" = some w ∧ Formats.andUtc w = t

variable {t : Chrono.DateTime}

namespace Time

theorem parseWall_iso (h : ReadsBack) (ht : Kdoc.wholeMs (Clocks.nanosecond t) = true) (zone : Zone) :
    parseWall (Chrono.iso t) (Chrono.iso t).toList zone = .ok t := by
  obtain ⟨s, w, hiso, hwall, hutc⟩ := h.wall t ht
  have hutcSuffix : stripSuffix " UTC".toList (s ++ ['Z']) = none := by
    rw [stripSuffix, if_neg]
    intro hsuffix
    obtain ⟨l, hl⟩ := List.isSuffixOf_iff_suffix.mp hsuffix
    have hlast := congrArg List.getLast? hl
    simp at hlast
  have hz : stripSuffix ['Z'] (s ++ ['Z']) = some s := by
    rw [stripSuffix, if_pos (List.isSuffixOf_iff_suffix.mpr (List.suffix_append _ _))]
    simp
  have htrim : trimEnd s = s := by
    have hdark : ∀ c ∈ s.reverse, JsonPath.isWhitespace c = false := fun c hc =>
      h.iso_dark t c (hiso ▸ List.mem_append_left _ (List.mem_reverse.mp hc))
    rw [trimEnd, JsonPath.dropWhile_of_dark hdark, List.reverse_reverse]
  rw [parseWall, hiso, hutcSuffix, hz]
  simp only [Option.none_or, Option.some_or, htrim, wallOf, hwall, Zone.instant, hutc]

theorem parseDatetime_iso (h : ReadsBack) (ht : Kdoc.wholeMs (Clocks.nanosecond t) = true) (zone : Zone) :
    parseDatetime (Chrono.iso t) zone = .ok t := by
  rw [parseDatetime, trimmed_of_dark (h.iso_dark t)]
  rcases hrfc : Formats.rfc3339 (Chrono.iso t) with _ | s
  · rcases hoffset : offsetFormats.findSome? (Formats.dateTime (Chrono.iso t)) with _ | s
    · exact parseWall_iso h ht zone
    · obtain ⟨f, hmem, hf⟩ := List.exists_of_findSome?_eq_some hoffset
      rw [h.offset t s f hmem ht hf]
  · rw [h.rfc3339 t s ht hrfc]

end Time

namespace Doc

theorem typedLeaf_decimal (h : ReadsBack) (d : Decimal) : typedLeaf "$decimal" d.text = .ok (.decimal d) := by
  rw [typedLeaf, if_pos rfl, Decimal.parse_text (h.decimal d)]
  rfl

theorem typedLeaf_date (h : ReadsBack) {d : Date} (hd : Kdoc.inRange d = true) :
    typedLeaf "$date" (dateText d) = .ok (.date d) := by
  rw [typedLeaf, if_neg (by decide), if_pos rfl, parseDate, trimmed_of_dark fun c => dark_dateText, h.date d hd]
  rfl

theorem typedLeaf_time (h : ReadsBack) {u : Chrono.NaiveTime} (hu : Kdoc.wholeMs (Clocks.timeNanosecond u) = true) :
    typedLeaf "$time" (Chrono.timeText u) = .ok (.time u) := by
  have hms : Clocks.timeNanosecond u / 1000000 * 1000000 = Clocks.timeNanosecond u := by
    have hmod := (Bool.and_eq_true _ _).mp hu
    have := of_decide_eq_true hmod.1
    omega
  have hparse : parseTime (Chrono.timeText u) = .ok u := by
    rw [parseTime, trimmed_of_dark (h.time_dark u), List.findSome?_cons, h.time u hu]
  rw [typedLeaf, if_neg (by decide), if_neg (by decide), if_pos rfl, hparse]
  show Except.ok (time ((Formats.withNanosecond u (Clocks.timeNanosecond u / 1000000 * 1000000)).getD u)) = _
  rw [hms, h.nanosecond u]
  rfl

theorem typedLeaf_dateTime (h : ReadsBack) (ht : Kdoc.wholeMs (Clocks.nanosecond t) = true) :
    typedLeaf "$datetime" (Chrono.iso t) = .ok (.dateTime t) := by
  have hback : Clocks.fromTimestampMillis (Clocks.timestampMillis t) = some t := by
    have hms := (Bool.and_eq_true _ _).mp ht
    exact Clocks.millis_back t (Nat.dvd_of_mod_eq_zero (of_decide_eq_true hms.1)) (of_decide_eq_true hms.2)
  have helse : elsewhere (Chrono.iso t) t = false := by
    unfold elsewhere
    split
    · rw [parseDatetime_iso h ht]
      simp
    · rfl
  rw [typedLeaf, if_neg (by decide), if_neg (by decide), if_neg (by decide), parseDatetime_iso h ht]
  show (if elsewhere (Chrono.iso t) t then _ else _) = _
  rw [helse, if_neg (by decide), hback]
  rfl

omit [Chrono] [Clocks] [Formats] [ExactDecimals] in
theorem unescaped_escaped (k : String) : unescaped (escaped k) = .ok k := by
  unfold escaped
  split
  · next h =>
      obtain ⟨rest, hk⟩ : ∃ rest, k.toList = '$' :: rest := by
        rcases hk : k.toList with _ | ⟨c, rest⟩
        · rw [hk] at h
          exact nomatch h
        · rw [hk, List.head?_cons, Option.some.injEq] at h
          exact ⟨rest, by rw [h]⟩
      rw [unescaped, String.toList_ofList, hk]
      show Except.ok (String.ofList ('$' :: rest)) = _
      rw [← hk, String.ofList_toList]
  · next h =>
      rw [unescaped]
      split
      · next heq => exact absurd (by rw [heq]; rfl) h
      · next heq => exact absurd (by rw [heq]; rfl) h
      · rfl

omit [Chrono] [Clocks] [Formats] [ExactDecimals] in
/-- A key of the data is no tag. -/
theorem escaped_notMem_tags (k : String) : escaped k ∉ tags := by
  intro hmem
  have hback := unescaped_escaped k
  rw [tags, List.mem_cons, List.mem_cons, List.mem_cons, List.mem_singleton] at hmem
  rcases hmem with h | h | h | h
  all_goals
    rw [h] at hback
    exact nomatch hback

omit [Clocks] [Formats] [ExactDecimals] in
theorem tag?_extended (m : List (String × Doc)) : tag? (extendedMembers m) = none := by
  match m with
  | [] => rfl
  | [(k, d)] => exact if_neg (escaped_notMem_tags k)
  | _ :: _ :: _ => rfl

omit [Clocks] [Formats] [ExactDecimals] in
theorem insert_new {m : Members Doc} {k : String} (h : k ∉ m.map Prod.fst) (d : Doc) : m.insert k d = m ++ [(k, d)] := by
  induction m with
  | nil => rfl
  | cons p m ih =>
      rw [List.map_cons, List.mem_cons, not_or] at h
      rw [Members.insert, if_neg h.1, ih h.2, List.cons_append]

variable [Arithmetic]

mutual

/-- What was checked is read back as it was. -/
theorem fromExtended_to (h : ReadsBack) (d : Doc) {depth : Nat} (hcheck : Kdoc.checkAt d depth = .ok ())
    (hheld : Kdoc.held d = true) : fromExtended (toExtendedJson d) depth = .ok d := by
  have hdepth := Kdoc.depth_of_check hcheck
  match d with
  | .null => exact if_neg hdepth
  | .bool b => exact if_neg hdepth
  | .str s => exact if_neg hdepth
  | .int i =>
      show fromExtended (.number (.ofInt i)) depth = _
      unfold fromExtended
      simp only [if_neg hdepth, Number.asI64_ofInt]
  | .float f => exact if_neg hdepth
  | .decimal d => exact (if_neg hdepth).trans (typedLeaf_decimal h d)
  | .date d => exact (if_neg hdepth).trans (typedLeaf_date h hheld)
  | .dateTime t =>
      refine (if_neg hdepth).trans (typedLeaf_dateTime h ?_)
      by_contra hms
      rw [Kdoc.checkAt, if_neg hdepth, if_neg hms] at hcheck
      exact nomatch hcheck
  | .time t =>
      refine (if_neg hdepth).trans (typedLeaf_time h ?_)
      by_contra hms
      rw [Kdoc.checkAt, if_neg hdepth, if_neg hms] at hcheck
      exact nomatch hcheck
  | .array ds =>
      rw [Kdoc.checkAt, if_neg hdepth] at hcheck
      obtain ⟨-, hds⟩ := (Bool.and_eq_true _ _).mp hheld
      rw [toExtendedJson, fromExtended, if_neg hdepth, extendedArray_to h ds hcheck hds]
      rfl
  | .object m =>
      rw [Kdoc.checkAt, if_neg hdepth] at hcheck
      obtain ⟨hlen, hds⟩ := (Bool.and_eq_true _ _).mp hheld
      obtain ⟨-, hnodup⟩ := (Bool.and_eq_true _ _).mp hlen
      rw [toExtendedJson, fromExtended, if_neg hdepth, tag?_extended]
      dsimp only
      rw [extendedObject_to h m [] hcheck hds (of_decide_eq_true hnodup)]
      rfl

theorem extendedArray_to (h : ReadsBack) (ds : List Doc) {depth : Nat} (hcheck : Kdoc.checkItems ds depth = .ok ())
    (hheld : Kdoc.heldItems ds = true) : extendedArray (extendedItems ds) depth = .ok ds := by
  match ds with
  | [] => rfl
  | d :: ds =>
      obtain ⟨hd, hds⟩ := Kdoc.checkItems_cons hcheck
      obtain ⟨hheld, hhelds⟩ := (Bool.and_eq_true _ _).mp hheld
      rw [extendedItems, extendedArray]
      exact except_bind_ok.mpr ⟨d, fromExtended_to h d hd hheld,
        except_bind_ok.mpr ⟨ds, extendedArray_to h ds hds hhelds, rfl⟩⟩

theorem extendedObject_to (h : ReadsBack) (ds m : List (String × Doc)) {depth : Nat}
    (hcheck : Kdoc.checkMembers ds depth = .ok ()) (hheld : Kdoc.heldMembers ds = true)
    (hnodup : ((m ++ ds).map Prod.fst).Nodup) : extendedObject (extendedMembers ds) depth m = .ok (m ++ ds) := by
  match ds with
  | [] =>
      rw [List.append_nil]
      rfl
  | (k, d) :: ds =>
      obtain ⟨hd, hds⟩ := Kdoc.checkMembers_cons hcheck
      obtain ⟨-, hheld⟩ := (Bool.and_eq_true _ _).mp hheld
      obtain ⟨hheld, hhelds⟩ := (Bool.and_eq_true _ _).mp hheld
      have hnew : k ∉ m.map Prod.fst := by
        rw [List.map_append, List.nodup_append] at hnodup
        exact fun hmem => hnodup.2.2 k hmem k (by simp) rfl
      have hrest := extendedObject_to h ds (m ++ [(k, d)]) hds hhelds (by rwa [← List.append_cons])
      rw [extendedMembers, extendedObject, unescaped_escaped]
      refine except_bind_ok.mpr ⟨k, rfl, except_bind_ok.mpr ⟨d, fromExtended_to h d hd hheld, ?_⟩⟩
      rw [insert_new hnew, hrest, ← List.append_cons]

end

/-- Extended JSON keeps every type. -/
theorem extended_exact (h : ReadsBack) {d : Doc} (hcheck : Kdoc.check d = .ok ()) (hheld : Kdoc.held d = true) :
    fromExtendedJson (toExtendedJson d) = .ok d ∧
      ∀ e, Kdoc.check e = .ok () → Kdoc.held e = true → toExtendedJson e = toExtendedJson d → e = d := by
  have hback {d : Doc} (hcheck : Kdoc.check d = .ok ()) (hheld : Kdoc.held d = true) :
      fromExtendedJson (toExtendedJson d) = .ok d := fromExtended_to h d hcheck hheld
  refine ⟨hback hcheck hheld, fun e he he' heq => ?_⟩
  have hsame := hback he he'
  rw [heq, hback hcheck hheld] at hsame
  exact (Except.ok.inj hsame).symm

end Doc

end

section Samples

/-- Reads the digits and the point of a decimal. -/
def readDecimal (s : String) : Option Decimal :=
  let scale := (s.toList.dropWhile (· ≠ '.')).tail.length
  let m : Int := Nat.ofDigitChars 10 (s.toList.filter Char.isDigit) 0
  let mantissa := if s.toList.head? = some '-' then -m else m
  if h : mantissa.natAbs < 2 ^ 96 ∧ scale ≤ 28 then some ⟨mantissa, scale, h.1, h.2⟩ else none

theorem readDecimal_text (d : Decimal) : readDecimal d.text = some d := by
  have hm : (if d.text.toList.head? = some '-' then -((Nat.ofDigitChars 10 d.digits 0 : Nat) : Int)
      else (Nat.ofDigitChars 10 d.digits 0 : Nat)) = d.mantissa := by
    rw [Decimal.digits, ofDigitChars_padded]
    simp only [Decimal.head_text]
    split <;> omega
  unfold readDecimal
  simp only [Decimal.filter_text, Decimal.length_after_point, hm]
  exact dif_pos ⟨d.mantissa_lt, d.scale_le⟩

/-- Reads a year and its sign. -/
def readYear : List Char → Int
  | '-' :: rest => -Nat.ofDigitChars 10 rest 0
  | '+' :: rest => Nat.ofDigitChars 10 rest 0
  | year => Nat.ofDigitChars 10 year 0

/-- Reads a day as it is written: the year, then two digits for the month and the day. -/
def readDate (l : List Char) : Option Date :=
  Date.ofYmd? (readYear (l.take (l.length - 6))) (Nat.ofDigitChars 10 ((l.drop (l.length - 5)).take 2) 0)
    (Nat.ofDigitChars 10 (l.drop (l.length - 2)) 0)

theorem length_padded_two {n : Nat} (h : n < 100) : (padded 2 n).length = 2 := by
  have hlen : ∀ n < 100, (padded 2 n).length = 2 := by decide
  exact hlen n h

theorem readYear_yearText (y : Int) : readYear (yearText y) = y := by
  unfold yearText
  split
  · have hne : padded 4 y.toNat ≠ [] := by
      intro h
      have hlen := length_padded 4 y.toNat
      rw [h, List.length_nil] at hlen
      omega
    obtain ⟨c, cs, hc⟩ := List.exists_cons_of_ne_nil hne
    have hdigit : c.isDigit = true := isDigit_of_mem_padded (hc ▸ List.mem_cons_self)
    have hminus : c ≠ '-' := by
      rintro rfl
      exact absurd hdigit (by decide)
    have hplus : c ≠ '+' := by
      rintro rfl
      exact absurd hdigit (by decide)
    have hyear : readYear (padded 4 y.toNat) = Nat.ofDigitChars 10 (padded 4 y.toNat) 0 := by
      rw [hc, readYear.eq_3]
      · exact fun rest h => hminus (List.cons.inj h).1
      · exact fun rest h => hplus (List.cons.inj h).1
    rw [hyear, ofDigitChars_padded]
    omega
  · by_cases hneg : y < 0
    · rw [if_pos hneg, readYear, ofDigitChars_padded]
      omega
    · rw [if_neg hneg, readYear, ofDigitChars_padded]
      omega

theorem readDate_dateText (d : Date) : readDate (dateText d).toList = some d := by
  have hday := (d.day_le.trans (daysInMonth_le _ _))
  have hm := length_padded_two (n := d.month) (by have := d.month_le; omega)
  have hd := length_padded_two (n := d.day) (by omega)
  rw [dateText, String.toList_ofList, List.append_assoc]
  generalize hY : yearText d.year = Y
  have hlen : (Y ++ ('-' :: padded 2 d.month ++ '-' :: padded 2 d.day)).length = Y.length + 6 := by
    simp [hm, hd]
  have hrest (i : Nat) : (Y ++ ('-' :: padded 2 d.month ++ '-' :: padded 2 d.day)).drop (Y.length + i) =
      ('-' :: padded 2 d.month ++ '-' :: padded 2 d.day).drop i := by
    rw [List.drop_append, List.drop_eq_nil_of_le (Nat.le_add_right _ _), List.nil_append, Nat.add_sub_cancel_left]
  have hmonth : ((Y ++ ('-' :: padded 2 d.month ++ '-' :: padded 2 d.day)).drop (Y.length + 1)).take 2 = padded 2 d.month := by
    rw [hrest, List.cons_append, List.drop_succ_cons, List.drop_zero, List.take_left' hm]
  have hlast : (Y ++ ('-' :: padded 2 d.month ++ '-' :: padded 2 d.day)).drop (Y.length + 4) = padded 2 d.day := by
    rw [hrest, List.cons_append, List.drop_succ_cons, List.drop_append, List.drop_eq_nil_of_le (by omega), hm]
    rfl
  rw [readDate, hlen, Nat.add_sub_cancel, List.take_left' rfl, ← hY, readYear_yearText, hY]
  rw [show Y.length + 6 - 5 = Y.length + 1 by omega, show Y.length + 6 - 2 = Y.length + 4 by omega, hmonth, hlast,
    ofDigitChars_padded, ofDigitChars_padded, Date.ofYmd?, dif_pos ⟨d.month_pos, d.month_le, d.day_pos, d.day_le⟩]

/-- A clock that stands at the first instant. -/
local instance still : Chrono where
  DateTime := Unit
  NaiveTime := Unit
  decEqDateTime := inferInstance
  decEqNaiveTime := inferInstance
  iso _ := "1970-01-01T00:00:00.000Z"
  timeText _ := "00:00:00"
  parseDatetime _ := none
  parseTime _ := none

local instance stillClocks : Clocks where
  nanosecond _ := 0
  timestampMillis _ := 0
  fromTimestampMillis ms := if ms = 0 then some () else none
  dateTimeText _ := "1970-01-01 00:00:00 UTC"
  timeNanosecond _ := 0
  numSecondsFromMidnight _ := 0
  fromNumSecondsFromMidnight _ n := if n = 0 then some () else none
  naiveTimeText _ := "00:00:00"
  millis_back _ _ _ := rfl
  millis_nanos ms t h := by
    have hms : ms = 0 := by
      by_contra hne
      exact nomatch (if_neg hne).symm.trans h
    rw [hms]
    rfl
  time_back _ _ := rfl
  time_secs _ := by decide
  time_nanos s n t h := by
    by_contra hne
    exact nomatch (if_neg (Ne.symm hne)).symm.trans h

local instance days : Formats where
  Tz := Empty
  tz _ := none
  tzName t := nomatch t
  offsetText _ := "+01:00"
  rfc3339 s := if s = "1970-01-01T00:00:00.000Z" then some () else none
  dateTime _ _ := none
  wall s f := if s = "1970-01-01 00:00:00.000" ∧ f = "%Y-%m-%d %H:%M:%S%.f" then some (Date.epoch, ()) else none
  date s f := if f = "%Y-%m-%d" then readDate s.toList else none
  time s f := if s = "00:00:00" ∧ f = "%H:%M:%S%.f" then some () else none
  midnight := ()
  hour _ := 0
  minute _ := 0
  second _ := 0
  nanosecond _ := 0
  withNanosecond _ n := if n = 0 then some () else none
  fromHmsMilli h m s ms := if h = 0 ∧ m = 0 ∧ s = 0 ∧ ms = 0 then some () else none
  andUtc _ := ()
  machineInstant _ := some ()
  tzInstant t := nomatch t
  fixedInstant _ _ := none
  machineOffset _ := 0
  tzOffset t := nomatch t
  wallAt _ _ := (Date.epoch, ())

local instance decimals : ExactDecimals where
  fromStrExact := readDecimal

theorem days_readBack : ReadsBack where
  decimal := readDecimal_text
  date d _ := (if_pos rfl).trans (readDate_dateText d)
  time _ _ := rfl
  time_dark _ := by
    show ∀ c ∈ "00:00:00".toList, JsonPath.isWhitespace c = false
    exact dark_of_all (by decide)
  nanosecond _ := rfl
  iso_dark _ := by
    show ∀ c ∈ "1970-01-01T00:00:00.000Z".toList, JsonPath.isWhitespace c = false
    exact dark_of_all (by decide)
  rfc3339 _ _ _ _ := rfl
  offset _ _ _ _ _ _ := rfl
  wall _ _ := by
    have hiso : "1970-01-01T00:00:00.000Z".toList = "1970-01-01T00:00:00.000".toList ++ ['Z'] := by decide
    exact ⟨_, (Date.epoch, ()), hiso, if_pos ⟨by decide, rfl⟩, rfl⟩

local instance texts : Arithmetic where
  checkedAdd _ _ := none
  jsonText _ := ""

/-- Keys that start with `$` and a leaf of each type. -/
def dollars : Doc :=
  .object [("$decimal", .decimal (.of (-125050) 2 (by decide))), ("$$x", .float ⟨false, 1026, 0⟩),
    ("$", .object [("$date", .date (.of 2024 2 29 (by decide)))]),
    ("at", .array [.dateTime (), .time (), .int (-5)])]

theorem dollars_back : Doc.fromExtendedJson dollars.toExtendedJson = .ok dollars ∧
    ∀ e, Kdoc.check e = .ok () → Kdoc.held e = true → e.toExtendedJson = dollars.toExtendedJson → e = dollars :=
  Doc.extended_exact days_readBack (by decide) (by decide)

end Samples

end KivaDb
