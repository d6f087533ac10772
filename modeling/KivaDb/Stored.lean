import KivaDb.Engine.Commits
import KivaDb.Engine.Reads
import KivaDb.ExtendedBack
import KivaDb.FromJson
import KivaDb.Kdoc.RoundTrip
import KivaDb.Paths
import KivaDb.Query.Language

namespace KivaDb

open Lib.LittleEndian Lib.Utf8 Lib.Fallible Lib.Calendar Crypt Format Log

/-- What the encoding of values takes from `serde_json` and `rmp_serde`. -/
class Serde where
  toVec : Json → Result Bytes
  fromSlice : Bytes → Except String Json
  rmpToVec : Json → Except String Bytes
  rmpFromSlice : Bytes → Except String Json

namespace Json

mutual

/-- The arrays and objects inside one another. -/
def levels : Json → Nat
  | .array items => itemsLevels items + 1
  | .object m => membersLevels m + 1
  | _ => 0

def itemsLevels : List Json → Nat
  | [] => 0
  | j :: js => max (levels j) (itemsLevels js)

def membersLevels : List (String × Json) → Nat
  | [] => 0
  | (_, j) :: js => max (levels j) (membersLevels js)

end

def hasTy : Json → Ty → Bool
  | .array _, .array => true
  | .object _, .object => true
  | _, _ => false

end Json

/-- The levels that the reader of a document allows. -/
def maxLevels (msgpack : Bool) : Nat := if msgpack then 1023 else 127

/-- A document that the libraries read back as they wrote it, or refuse as too deep. -/
structure Serde.Reads [Serde] (j : Json) : Prop where
  json : ∀ b, toVec j = .ok b → j.levels ≤ maxLevels false → fromSlice b = .ok j
  json_deep : ∀ b, toVec j = .ok b → maxLevels false < j.levels → ∃ e, fromSlice b = .error e
  rmp : ∀ b, rmpToVec j = .ok b → j.levels ≤ maxLevels true → rmpFromSlice b = .ok j
  rmp_deep : ∀ b, rmpToVec j = .ok b → maxLevels true < j.levels → ∃ e, rmpFromSlice b = .error e

namespace Doc

variable [Chrono]

mutual

/-- Whether JSON holds the document without losing a type. -/
def jsonEncodable : Doc → Bool
  | decimal d => d.u64BeyondI64.isSome
  | date _ | dateTime _ | time _ => false
  | array items => itemsEncodable items
  | object m => membersEncodable m
  | _ => true

def itemsEncodable : List Doc → Bool
  | [] => true
  | d :: ds => jsonEncodable d && itemsEncodable ds

def membersEncodable : List (String × Doc) → Bool
  | [] => true
  | (_, d) :: ds => jsonEncodable d && membersEncodable ds

end

def hasTy : Doc → Ty → Bool
  | array _, .array => true
  | object _, .object => true
  | _, _ => false

end Doc

namespace Value

variable [Chrono] [Formats] [Clocks] [Serde]

open Doc (jsonEncodable toPlainJson typeName)

/-- An array or an object that `KDOC` reads back as it is. -/
def checkDocument (d : Doc) : Result Unit :=
  match d with
  | .array _ | .object _ => (Kdoc.check d).mapError .invalid
  | d => .error (.invalid s!"a document is an array or an object, not a [{d.typeName}]")

/-- A document as a value: typed when it holds one that JSON cannot carry. -/
def ofTyped (d : Doc) : Result Value := do
  checkDocument d
  return if jsonEncodable d then .doc (toPlainJson d) else .typed d

def encodeJson (j : Json) (msgpack : Bool) : Result Bytes :=
  if msgpack then (Serde.rmpToVec j).mapError fun e => .invalid s!"MessagePack encoding failed: {e}"
  else Serde.toVec j

/-- The bytes of a value. Only documents have another form in MessagePack. -/
def encode (value : Value) (msgpack : Bool) : Result Bytes :=
  match value with
  | .typed d => encodeJson (toPlainJson d) msgpack
  | .str s => .ok (asBytes s)
  | .num s => .ok (asBytes s)
  | .bool b => .ok (asBytes (if b then "true" else "false"))
  | .null => .ok []
  | .doc j => encodeJson j msgpack
  | .bytes b => .ok b
  | .date d => .ok (asBytes (Time.dateText d))
  | .dateTime t => .ok (asBytes (Chrono.iso t))
  | .time t => .ok (asBytes (Chrono.timeText t))

def encodeDoc (j : Json) (msgpack : Bool) : Result (Bytes × DocEnc) :=
  (encode (.doc j) msgpack).map fun raw => (raw, if msgpack then .msgPack else .json)

/-- The bytes as stored, and how: `KDOC` only when it is needed. -/
def encodeStored (value : Value) (msgpack : Bool) : Result (Bytes × DocEnc) :=
  match value with
  | .typed d => do
      checkDocument d
      if jsonEncodable d then encodeDoc (toPlainJson d) msgpack else return (Kdoc.encode d, .kdoc)
  | .doc j => encodeDoc j msgpack
  | value => (encode value false).map fun raw => (raw, .json)

def text (raw : Bytes) : Result String :=
  match fromUtf8 raw with
  | some s => .ok s
  | none => .error (.corrupted "value is not valid UTF-8")

def decodeKdoc (ty : Ty) (raw : Bytes) : Result Value :=
  match Kdoc.decode raw with
  | .error (.bad why) => .error (.corrupted s!"KDOC document: {why}")
  | .error .panic => .error (.corrupted "KDOC document")
  | .ok d =>
      if !d.hasTy ty then .error (.corrupted "document does not match its type tag")
      else .ok (if jsonEncodable d then .doc (toPlainJson d) else .typed d)

def decodeDoc (ty : Ty) (raw : Bytes) (enc : DocEnc) : Result Value := do
  let j ← match enc with
    | .msgPack => (Serde.rmpFromSlice raw).mapError fun e => .corrupted s!"MessagePack document: {e}"
    | _ => (Serde.fromSlice raw).mapError fun e => .corrupted s!"JSON document: {e}"
  if j.hasTy ty then .ok (.doc j) else .error (.corrupted "document does not match its type tag")

def decode (ty : Ty) (raw : Bytes) (enc : DocEnc) : Result Value :=
  if enc = .kdoc ∧ !ty.isDoc then
    let name := ty.name
    .error (.corrupted s!"a [{name}] marked as a KDOC document")
  else
    match ty with
    | .string => (text raw).map .str
    | .number => do
        let s ← text raw
        if Num.isValidNumber s.toList then .ok (.num s) else .error (.corrupted "stored number is malformed")
    | .boolean =>
        if raw = asBytes "true" then .ok (.bool true)
        else if raw = asBytes "false" then .ok (.bool false)
        else .error (.corrupted "stored boolean is malformed")
    | .null => .ok .null
    | .array | .object => if enc = .kdoc then decodeKdoc ty raw else decodeDoc ty raw enc
    | .bytes => .ok (.bytes raw)
    | .date => do
        let s ← text raw
        ((Time.parseDate s).mapError .corrupted).map .date
    | .dateTime => do
        let s ← text raw
        ((Time.parseDatetime s .utc).mapError .corrupted).map .dateTime
    | .time => do
        let s ← text raw
        ((Time.parseTime s).mapError .corrupted).map .time

/-- A moment of the years that are written with four digits. -/
def InYears (t : Chrono.DateTime) : Prop := 0 ≤ (Formats.wallAt 0 t).1.year ∧ (Formats.wallAt 0 t).1.year ≤ 9999

/-- What `chrono` writes it reads back, but for what is finer than the millisecond, which it does not write. -/
structure ChronoTexts : Prop where
  date : ∀ d : Date, 0 ≤ d.year ∧ d.year ≤ 9999 → Formats.date (Time.dateText d) "%Y-%m-%d" = some d
  iso_dark : ∀ t, ∀ c ∈ (Chrono.iso t).toList, JsonPath.isWhitespace c = false
  rfc3339 : ∀ t, InYears t → 1000000 ∣ Clocks.nanosecond t → Formats.rfc3339 (Chrono.iso t) = some t
  iso_millis : ∀ t, InYears t → ∃ u, InYears u ∧ 1000000 ∣ Clocks.nanosecond u ∧ Chrono.iso u = Chrono.iso t
  time_dark : ∀ t, ∀ c ∈ (Chrono.timeText t).toList, JsonPath.isWhitespace c = false
  time : ∀ t, 1000000 ∣ Clocks.timeNanosecond t → Formats.time (Chrono.timeText t) "%H:%M:%S%.f" = some t
  time_millis : ∀ t, ∃ u, 1000000 ∣ Clocks.timeNanosecond u ∧ Chrono.timeText u = Chrono.timeText t

/-- The values that are made: numbers that are texts of numbers, documents with an array or an object at the root, typed
where JSON would lose a type, dates and moments of the years 0 to 9999. -/
def Proper : Value → Prop
  | num s => Num.isValidNumber s.toList = true
  | doc j => j.hasTy (doc j).ty = true
  | typed d => d.hasTy (typed d).ty = true ∧ jsonEncodable d = false ∧ Kdoc.held d = true
  | date d => 0 ≤ d.year ∧ d.year ≤ 9999
  | dateTime t => InYears t
  | _ => True

/-- No deeper than the reader goes, and no finer than the millisecond. -/
def Readable (msgpack : Bool) : Value → Prop
  | doc j => j.levels ≤ maxLevels msgpack
  | dateTime t => 1000000 ∣ Clocks.nanosecond t
  | time t => 1000000 ∣ Clocks.timeNanosecond t
  | _ => True

omit [Serde] in
theorem ofTyped_proper {d : Doc} {v : Value} (hheld : Kdoc.held d = true) (h : ofTyped d = .ok v) : v.Proper := by
  obtain ⟨_, hcheck, h⟩ := except_bind_ok.mp h
  have hdoc : d.hasTy (typed d).ty = true := by
    unfold checkDocument at hcheck
    split at hcheck
    · rfl
    · rfl
    · exact nomatch hcheck
  cases hjson : jsonEncodable d with
  | true =>
      rw [hjson] at h
      rw [← Except.ok.inj h]
      cases d with
      | array items => rfl
      | object m => rfl
      | _ => exact nomatch hdoc
  | false =>
      rw [hjson] at h
      rw [← Except.ok.inj h]
      exact ⟨hdoc, hjson, hheld⟩

omit [Chrono] [Formats] [Clocks] [Serde] in
theorem text_asBytes (s : String) : text (asBytes s) = .ok s := by
  rw [text, fromUtf8_asBytes]

omit [Serde] in
theorem parseDatetime_iso (h : ChronoTexts) {t : Chrono.DateTime} (hyears : InYears t) (hmillis : 1000000 ∣ Clocks.nanosecond t) :
    Time.parseDatetime (Chrono.iso t) .utc = .ok t := by
  rw [Time.parseDatetime, Time.trimmed_of_dark (h.iso_dark t), h.rfc3339 t hyears hmillis]

omit [Serde] in
theorem parseTime_timeText (h : ChronoTexts) {t : Chrono.NaiveTime} (hmillis : 1000000 ∣ Clocks.timeNanosecond t) :
    Time.parseTime (Chrono.timeText t) = .ok t := by
  rw [Time.parseTime, Time.trimmed_of_dark (h.time_dark t), List.findSome?_cons, h.time t hmillis]

/-- A text that stands for a moment of whole milliseconds gives the moment it was written for if that one is whole too. -/
theorem decode_dateTime_iff (h : ChronoTexts) {t : Chrono.DateTime} (hyears : InYears t) :
    decode .dateTime (asBytes (Chrono.iso t)) .json = .ok (dateTime t) ↔ 1000000 ∣ Clocks.nanosecond t := by
  obtain ⟨u, huyears, humillis, hiso⟩ := h.iso_millis t hyears
  have hdecode : decode .dateTime (asBytes (Chrono.iso t)) .json = .ok (dateTime u) := by
    rw [decode, if_neg (fun hk => nomatch hk.1), text_asBytes, ← hiso]
    exact congrArg (fun r => (r.mapError KivaError.corrupted).map dateTime) (parseDatetime_iso h huyears humillis)
  rw [hdecode]
  constructor
  · intro heq
    rw [← dateTime.inj (Except.ok.inj heq)]
    exact humillis
  · intro hmillis
    have hsame := (parseDatetime_iso h hyears hmillis).symm.trans (hiso ▸ parseDatetime_iso h huyears humillis)
    rw [Except.ok.inj hsame]

theorem decode_time_iff (h : ChronoTexts) {t : Chrono.NaiveTime} :
    decode .time (asBytes (Chrono.timeText t)) .json = .ok (time t) ↔ 1000000 ∣ Clocks.timeNanosecond t := by
  obtain ⟨u, humillis, htext⟩ := h.time_millis t
  have hdecode : decode .time (asBytes (Chrono.timeText t)) .json = .ok (time u) := by
    rw [decode, if_neg (fun hk => nomatch hk.1), text_asBytes, ← htext]
    exact congrArg (fun r => (r.mapError KivaError.corrupted).map time) (parseTime_timeText h humillis)
  rw [hdecode]
  constructor
  · intro heq
    rw [← time.inj (Except.ok.inj heq)]
    exact humillis
  · intro hmillis
    have hsame := (parseTime_timeText h hmillis).symm.trans (htext ▸ parseTime_timeText h humillis)
    rw [Except.ok.inj hsame]

omit [Chrono] [Formats] [Clocks] [Serde] in
theorem ok_of_mapError {α ε ε' : Type} {r : Except ε α} {f : ε → ε'} {a : α} (h : r.mapError f = .ok a) : r = .ok a := by
  cases r with
  | error e => exact nomatch h
  | ok b => exact congrArg Except.ok (Except.ok.inj h)

theorem decode_eq_decodeDoc {ty : Ty} (hty : ty.isDoc = true) {raw : Bytes} {enc : DocEnc} (henc : enc ≠ .kdoc) :
    decode ty raw enc = decodeDoc ty raw enc := by
  cases ty with
  | array =>
      rw [decode, if_neg fun h => henc h.1]
      exact if_neg henc
  | object =>
      rw [decode, if_neg fun h => henc h.1]
      exact if_neg henc
  | _ => exact nomatch hty

omit [Chrono] [Formats] [Clocks] [Serde] in
theorem isDoc_of_hasTy {j : Json} {ty : Ty} (h : j.hasTy ty = true) : ty.isDoc = true := by
  cases ty with
  | array => rfl
  | object => rfl
  | _ => cases j <;> exact nomatch h

theorem decode_doc_iff {j : Json} {msgpack : Bool} {raw : Bytes} {enc : DocEnc} (hj : j.hasTy (doc j).ty = true)
    (hreads : Serde.Reads j) (h : encodeDoc j msgpack = .ok (raw, enc)) :
    decode (doc j).ty raw enc = .ok (doc j) ↔ j.levels ≤ maxLevels msgpack := by
  have hty := isDoc_of_hasTy hj
  cases hraw : encodeJson j msgpack with
  | error e =>
      rw [encodeDoc, encode, hraw] at h
      exact nomatch h
  | ok b =>
      rw [encodeDoc, encode, hraw] at h
      obtain ⟨rfl, rfl⟩ := Prod.mk.inj (Except.ok.inj h)
      have hback {r : Except String Json} {f : String → KivaError} (hok : j.levels ≤ maxLevels msgpack → r = .ok j)
          (hdeep : maxLevels msgpack < j.levels → ∃ e, r = .error e) :
          ((r.mapError f).bind fun k => if k.hasTy (doc j).ty then .ok (doc k)
            else .error (.corrupted "document does not match its type tag")) = .ok (doc j) ↔ j.levels ≤ maxLevels msgpack := by
        by_cases hlevels : j.levels ≤ maxLevels msgpack
        · rw [hok hlevels]
          exact iff_of_true (if_pos hj) hlevels
        · obtain ⟨e, he⟩ := hdeep (Nat.lt_of_not_le hlevels)
          rw [he]
          exact iff_of_false (fun hk => nomatch hk) hlevels
      cases msgpack with
      | false =>
          rw [decode_eq_decodeDoc hty (by decide)]
          exact hback (hreads.json b hraw) (hreads.json_deep b hraw)
      | true =>
          rw [decode_eq_decodeDoc hty (by decide)]
          have hrmp : Serde.rmpToVec j = .ok b := by
            rw [encodeJson, if_pos rfl] at hraw
            exact ok_of_mapError hraw
          exact hback (hreads.rmp b hrmp) (hreads.rmp_deep b hrmp)

theorem decode_typed {d : Doc} {msgpack : Bool} {raw : Bytes} {enc : DocEnc} (hd : d.hasTy (typed d).ty = true)
    (hjson : jsonEncodable d = false) (hheld : Kdoc.held d = true) (h : encodeStored (typed d) msgpack = .ok (raw, enc)) :
    decode (typed d).ty raw enc = .ok (typed d) := by
  obtain ⟨_, hcheck, h⟩ := except_bind_ok.mp h
  rw [if_neg (by rw [hjson]; decide)] at h
  obtain ⟨rfl, rfl⟩ := Prod.mk.inj (Except.ok.inj h)
  have hkdoc : Kdoc.check d = .ok () := by
    unfold checkDocument at hcheck
    split at hcheck
    · exact ok_of_mapError hcheck
    · exact ok_of_mapError hcheck
    · exact nomatch hcheck
  have hback : decodeKdoc (typed d).ty (Kdoc.encode d) = .ok (typed d) := by
    rw [decodeKdoc, Kdoc.decode_encode hkdoc hheld]
    dsimp only
    rw [hd, hjson]
    rfl
  cases d with
  | array items => exact hback
  | object m => exact hback
  | _ => exact nomatch hd

theorem decode_str (s : String) : decode .string (asBytes s) .json = .ok (str s) := by
  rw [decode, if_neg (fun hk => nomatch hk.1), text_asBytes]
  rfl

theorem decode_num {s : String} (h : Num.isValidNumber s.toList = true) : decode .number (asBytes s) .json = .ok (num s) := by
  rw [decode, if_neg (fun hk => nomatch hk.1), text_asBytes]
  exact if_pos h

theorem decode_bool (b : Bool) : decode .boolean (asBytes (if b then "true" else "false")) .json = .ok (bool b) := by
  have hne : asBytes "false" ≠ asBytes "true" := by decide
  rw [decode, if_neg (fun hk => nomatch hk.1)]
  cases b with
  | true => exact if_pos rfl
  | false => exact (if_neg hne).trans (if_pos rfl)

theorem decode_date (h : ChronoTexts) {d : Date} (hd : 0 ≤ d.year ∧ d.year ≤ 9999) :
    decode .date (asBytes (Time.dateText d)) .json = .ok (date d) := by
  have hparse : Time.parseDate (Time.dateText d) = .ok d := by
    rw [Time.parseDate, Time.trimmed_of_dark fun c => Time.dark_dateText, h.date d hd]
  rw [decode, if_neg (fun hk => (by cases hk.1)), text_asBytes]
  exact congrArg (fun r => (r.mapError KivaError.corrupted).map date) hparse

/-- The bytes of a value give it back exactly when the value is not too deep and not too fine. -/
theorem decode_encodeStored_iff (htexts : ChronoTexts) {v : Value} (hv : v.Proper) (hserde : ∀ j, v = .doc j → Serde.Reads j)
    {msgpack : Bool} {raw : Bytes} {enc : DocEnc} (h : encodeStored v (msgpack && v.ty.isDoc) = .ok (raw, enc)) :
    decode v.ty raw enc = .ok v ↔ v.Readable msgpack := by
  have hplain (hok : decode v.ty raw enc = .ok v) (hreadable : v.Readable msgpack) :
      decode v.ty raw enc = .ok v ↔ v.Readable msgpack := iff_of_true hok hreadable
  cases v with
  | doc j =>
      have hty := isDoc_of_hasTy hv
      rw [hty, Bool.and_true] at h
      exact decode_doc_iff hv (hserde j rfl) h
  | typed d => exact hplain (decode_typed hv.1 hv.2.1 hv.2.2 h) trivial
  | dateTime t =>
      obtain ⟨rfl, rfl⟩ := Prod.mk.inj (Except.ok.inj h)
      exact decode_dateTime_iff htexts hv
  | time t =>
      obtain ⟨rfl, rfl⟩ := Prod.mk.inj (Except.ok.inj h)
      exact decode_time_iff htexts
  | date d =>
      obtain ⟨rfl, rfl⟩ := Prod.mk.inj (Except.ok.inj h)
      exact hplain (decode_date htexts hv) trivial
  | str s =>
      obtain ⟨rfl, rfl⟩ := Prod.mk.inj (Except.ok.inj h)
      exact hplain (decode_str s) trivial
  | num s =>
      obtain ⟨rfl, rfl⟩ := Prod.mk.inj (Except.ok.inj h)
      exact hplain (decode_num hv) trivial
  | bool b =>
      obtain ⟨rfl, rfl⟩ := Prod.mk.inj (Except.ok.inj h)
      exact hplain (decode_bool b) trivial
  | null =>
      obtain ⟨rfl, rfl⟩ := Prod.mk.inj (Except.ok.inj h)
      exact hplain rfl trivial
  | bytes b =>
      obtain ⟨rfl, rfl⟩ := Prod.mk.inj (Except.ok.inj h)
      exact hplain rfl trivial

variable [External] [Codec] [Vectors]

/-- The values are written and read by the code above. -/
structure Coded : Prop where
  encodeStored : (Codec.encodeStored : Value → Bool → Result (Bytes × DocEnc)) = encodeStored
  decode : (Codec.decode : Ty → Bytes → DocEnc → Result Value) = decode

/-- A put that is accepted is read from its record, wherever the file has it, as it was given. -/
def ReadsBack (keys : Option Keys) (key : String) (entry : Entry) (rec : Bytes) (v : Value) : Prop :=
  ∀ (j : Inner) (pre post : Bytes), j.keys = keys → j.file = pre ++ (rec ++ post) →
    j.readValue key { entry with offset := pre.length } = .ok v

omit [Formats] [Clocks] [Serde] in
theorem readRaw_of_buildPut {i j : Inner} {key : String} {v : Value} {ex ts : Int64} {msgpack : Bool} {role : Role} {nonce : Draw}
    {rec raw pre post : Bytes} {entry : Entry} (hrole : role ≠ .commit)
    (h : buildPut i key v ex msgpack ts role.extra nonce = .ok (rec, entry, raw)) (hkeys : j.keys = i.keys)
    (hfile : j.file = pre ++ (rec ++ post)) : j.readRaw key { entry with offset := pre.length } = .ok raw := by
  obtain ⟨enc, -, -, hrec⟩ := buildPut_recorded hrole h
  obtain ⟨w, hw⟩ := hrec none v.ty false
  obtain ⟨hlen, hverify, k, stored, hopen, hunpack⟩ := hw.legible fun hc => absurd hc hrole
  refine Inner.readRaw_eq ?_ hverify (hkeys ▸ hopen) hunpack
  have hat := Inner.readAt_append hfile
  rw [← hlen] at hat
  exact hat

omit [Formats] [Clocks] [Serde] in
theorem readValue_eq_ok {j : Inner} {key : String} {e : Entry} {raw : Bytes} {v : Value} (h : j.readRaw key e = .ok raw) :
    j.readValue key e = .ok v ↔ Codec.decode e.ty raw e.docEnc = .ok v := by
  rw [Inner.readValue, h]
  cases hdecode : (Codec.decode e.ty raw e.docEnc : Result Value) with
  | ok w =>
      dsimp only [bind, Except.bind]
      rw [hdecode]
  | error why =>
      dsimp only [bind, Except.bind]
      rw [hdecode]
      refine iff_of_false (fun hok => ?_) (fun hok => nomatch hok)
      cases why <;> exact nomatch hok

omit [Formats] [Clocks] [Serde] in
theorem readsBack_iff_decode {i : Inner} {key : String} {v : Value} {ex ts : Int64} {msgpack : Bool} {role : Role} {nonce : Draw}
    {rec raw : Bytes} {entry : Entry} (hrole : role ≠ .commit)
    (h : buildPut i key v ex msgpack ts role.extra nonce = .ok (rec, entry, raw)) :
    ∃ enc, Codec.encodeStored v (msgpack && v.ty.isDoc) = .ok (raw, enc) ∧
      (ReadsBack i.keys key entry rec v ↔ Codec.decode v.ty raw enc = .ok v) := by
  obtain ⟨enc, hencode, hcontent, -⟩ := buildPut_recorded hrole h
  have hty : entry.ty = v.ty := congrArg Content.ty hcontent
  have henc : entry.docEnc = enc := congrArg Content.enc hcontent
  refine ⟨enc, hencode, ?_⟩
  rw [← hty, ← henc]
  constructor
  · intro hback
    have hfile : ({ i with file := rec } : Inner).file = [] ++ (rec ++ []) := by simp
    have hkeys : ({ i with file := rec } : Inner).keys = i.keys := rfl
    exact (readValue_eq_ok (readRaw_of_buildPut hrole h hkeys hfile)).mp (hback _ [] [] hkeys hfile)
  · intro hdecode j pre post hkeys hfile
    exact (readValue_eq_ok (readRaw_of_buildPut hrole h hkeys hfile)).mpr hdecode

/-- What is put is read back exactly when it is no document deeper than its reader goes and no moment finer than the
millisecond. -/
theorem put_readsBack_iff (htexts : ChronoTexts) (hcoded : Coded) {i : Inner} {key : String} {v : Value} {ex ts : Int64} {msgpack : Bool}
    {role : Role} {nonce : Draw} {rec raw : Bytes} {entry : Entry} (hv : v.Proper) (hserde : ∀ j, v = .doc j → Serde.Reads j)
    (hrole : role ≠ .commit) (h : buildPut i key v ex msgpack ts role.extra nonce = .ok (rec, entry, raw)) :
    ReadsBack i.keys key entry rec v ↔ v.Readable msgpack := by
  obtain ⟨enc, hencode, hiff⟩ := readsBack_iff_decode hrole h
  rw [hcoded.encodeStored] at hencode
  rw [hiff, hcoded.decode]
  exact decode_encodeStored_iff htexts hv hserde hencode

end Value

section Samples

attribute [local instance] still stillClocks days decimals Reference.libraries Reference.vectors

/-- Arrays inside one another. -/
def nested : Nat → Json
  | 0 => .array []
  | n + 1 => .array [nested n]

def flat : Json := .object [("tags", .array [.string "a", .bool true])]

/-- Reads one document, and nothing that is nested too deep. -/
local instance oneDocument : Serde where
  toVec j := .ok (asBytes (Reference.jsonText j))
  fromSlice b := if b = asBytes (Reference.jsonText flat) then .ok flat else .error "recursion limit exceeded"
  rmpToVec _ := .error "not written here"
  rmpFromSlice _ := .error "not read here"

local instance storedCodec : Codec where
  lowercase := String.toLower
  jsonText := Reference.jsonText
  sameValue _ _ := false
  encodeStored := Value.encodeStored
  decode := Value.decode

theorem exists_of_isOk {α ε : Type} {r : Except ε α} (h : r.isOk = true) : ∃ a, r = .ok a := by
  cases r with
  | error e => exact nomatch h
  | ok a => exact ⟨a, rfl⟩

def emptyEngine : Inner where
  file := fileHeader 1 formatV1
  fileId := 1
  format := formatV1
  table := Table.empty
  seq := 0
  compression := .none
  sec := []
  vecs := []
  schemas := []
  maxMemory := 0
  maxVectors := 0
  keys := none
  activeTxns := 0
  tombVersions := ∅
  resetSeq := 0
  compacting := false
  closed := false
  emitted := []

theorem days_texts : Value.ChronoTexts where
  date d _ := (if_pos rfl).trans (readDate_dateText d)
  iso_dark := days_readBack.iso_dark
  rfc3339 _ _ _ := rfl
  iso_millis _ h := ⟨(), h, ⟨0, rfl⟩, rfl⟩
  time_dark := days_readBack.time_dark
  time _ _ := rfl
  time_millis _ := ⟨(), ⟨0, rfl⟩, rfl⟩

/-- A document of 128 levels, made by appending one of 127 to an empty array, is written and not read. -/
theorem deep_lost : (JsonPath.append (.array []) [] [nested 126]).1 = nested 127 ∧
    ¬ ∀ (v : Value) (msgpack : Bool) (i : Inner) (key : String) (ex ts : Int64) (role : Role) (nonce : Draw) (rec raw : Bytes)
      (entry : Entry), v.Proper → (∀ j, v = .doc j → Serde.Reads j) → role ≠ .commit →
      buildPut i key v ex msgpack ts role.extra nonce = .ok (rec, entry, raw) → Value.ReadsBack i.keys key entry rec v := by
  refine ⟨rfl, fun h => ?_⟩
  have hlevels : (nested 127).levels = 128 := by decide +kernel
  have hreads : Serde.Reads (nested 127) := by
    refine ⟨fun b _ hle => ?_, fun b hb _ => ?_, fun b hb _ => (nomatch hb), fun b hb _ => (nomatch hb)⟩
    · rw [hlevels] at hle
      exact absurd hle (by decide)
    · rw [← Except.ok.inj hb]
      exact ⟨_, if_neg (by decide +kernel)⟩
  obtain ⟨⟨rec, entry, raw⟩, hput⟩ := exists_of_isOk (r := buildPut emptyEngine "a" (.doc (nested 127)) 0 false 5 Role.single.extra
    (.error "no key")) (by decide +kernel)
  have hproper : (Value.doc (nested 127)).Proper := by
    show (nested 127).hasTy .array = true
    rfl
  have hserde (j : Json) (hj : Value.doc (nested 127) = .doc j) : Serde.Reads j := by
    rw [← Value.doc.inj hj]
    exact hreads
  have hrole : Role.single ≠ .commit := by decide
  have hback := h (.doc (nested 127)) false emptyEngine "a" 0 5 .single (.error "no key") rec raw entry hproper hserde hrole hput
  obtain ⟨enc, hencode, hiff⟩ := Value.readsBack_iff_decode hrole hput
  have hread := (Value.decode_encodeStored_iff days_texts hproper hserde hencode).mp (hiff.mp hback)
  rw [Value.Readable, hlevels] at hread
  exact absurd hread (by decide)

theorem put_readsBack_iff_flat : ∃ rec entry raw, buildPut emptyEngine "a" (.doc flat) 0 false 5 Role.single.extra (.error "no key") =
    .ok (rec, entry, raw) ∧ Value.ReadsBack none "a" entry rec (.doc flat) := by
  have hlevels : flat.levels = 2 := by decide
  have hreads : Serde.Reads flat := by
    refine ⟨fun b hb _ => ?_, fun b _ hlt => ?_, fun b hb _ => (nomatch hb), fun b hb _ => (nomatch hb)⟩
    · exact if_pos (Except.ok.inj hb).symm
    · rw [hlevels] at hlt
      exact absurd hlt (by decide)
  obtain ⟨⟨rec, entry, raw⟩, hput⟩ := exists_of_isOk (r := buildPut emptyEngine "a" (.doc flat) 0 false 5 Role.single.extra
    (.error "no key")) (by decide)
  have hproper : (Value.doc flat).Proper := by
    show flat.hasTy .object = true
    rfl
  have hrole : Role.single ≠ .commit := by decide
  refine ⟨rec, entry, raw, hput, (Value.put_readsBack_iff days_texts ⟨rfl, rfl⟩ hproper (fun j hj => ?_) hrole hput).mpr ?_⟩
  · rw [← Value.doc.inj hj]
    exact hreads
  · rw [Value.Readable, hlevels]
    decide

end Samples

end KivaDb
