import KivaDb.Engine.Libraries
import KivaDb.Front.ReadBack
import KivaDb.Front.Reference
import KivaDb.Lib.Saturating
import KivaDb.Resp.Calm

namespace KivaDb.Resp

open Lib.LittleEndian Lib.Utf8 Lib.Program Lib.Saturating Front

/-- `MAX_STRING`. -/
def maxString : Int64 := 512 * 1024 * 1024

/-- `s` with `piece` at `offset`, grown with zeros; `none` where this panics: no buffer
holds `2 ^ 63` bytes, and a slice ends behind its start and is as long as what is copied to it. -/
def overlay (s : Bytes) (offset : Int64) (piece : Bytes) : Option Bytes :=
  let start := offset.toUInt64.toNat
  let stop := (start + piece.length) % 2 ^ 64
  if s.length < stop ∧ 2 ^ 63 ≤ stop then none
  else
    let s := s ++ List.replicate (stop - s.length) 0
    if stop < start ∨ stop - start ≠ piece.length then none
    else some (s.take start ++ piece ++ s.drop stop)

section

variable {s piece : Bytes} {offset : Int64}

/-- `t` is `s`, with zeros up to `n`, and `piece` written over it from there. -/
structure Laid (s : Bytes) (n : Nat) (piece t : Bytes) : Prop where
  length : t.length = max s.length (n + piece.length)
  inside : ∀ i, i < piece.length → t[n + i]? = piece[i]?
  outside : ∀ i, i < t.length → i < n ∨ n + piece.length ≤ i → t[i]? = some (s.getD i 0)

theorem laid_take_drop (s : Bytes) (n : Nat) (piece : Bytes) :
    Laid s n piece ((s ++ List.replicate (n + piece.length - s.length) 0).take n ++ piece ++
      (s ++ List.replicate (n + piece.length - s.length) 0).drop (n + piece.length)) := by
  have hpad (i : Nat) (hi : i < s.length + (n + piece.length - s.length)) :
      (s ++ List.replicate (n + piece.length - s.length) 0)[i]? = some (s.getD i 0) := by
    rw [List.getD_eq_getElem?_getD]
    by_cases h : i < s.length
    · rw [List.getElem?_append_left h, List.getElem?_eq_getElem h, Option.getD_some]
    · rw [List.getElem?_append_right (by omega), List.getElem?_replicate, if_pos (by omega),
        List.getElem?_eq_none (by omega), Option.getD_none]
  have htake : ((s ++ List.replicate (n + piece.length - s.length) 0).take n).length = n := by
    rw [List.length_take, List.length_append, List.length_replicate]
    omega
  refine ⟨?_, fun i hi => ?_, fun i hi hout => ?_⟩
  · rw [List.length_append, List.length_append, htake, List.length_drop, List.length_append, List.length_replicate]
    omega
  · rw [List.append_assoc, List.getElem?_append_right (by omega), htake, Nat.add_sub_cancel_left,
      List.getElem?_append_left hi]
  · rw [List.length_append, List.length_append, htake, List.length_drop, List.length_append,
      List.length_replicate] at hi
    rw [List.append_assoc]
    obtain hlow | hhigh := hout
    · rw [List.getElem?_append_left (by omega), List.getElem?_take_of_lt hlow, hpad i (by omega)]
    · rw [List.getElem?_append_right (by omega), htake, List.getElem?_append_right (by omega), List.getElem?_drop,
        show n + piece.length + (i - n - piece.length) = i by omega, hpad i (by omega)]

theorem toInt_maxString : maxString.toInt = 536870912 := by decide

theorem offset_neg : offset < 0 ↔ offset.toInt < 0 := by rw [Int64.lt_iff_toInt_lt, Int64.toInt_zero]

/-- The bound is tested on the sum as it is. -/
theorem maxString_lt {len : Nat} (hlen : len < 2 ^ 63) (h : offset.toInt + len < 2 ^ 63) :
    maxString < offset + Int64.ofNat len ↔ maxString.toInt < offset.toInt + len := by
  have hoffset := offset.le_toInt
  rw [Int64.lt_iff_toInt_lt, toInt_add_of_fits, Int64.toInt_ofNat_of_lt hlen]
  rw [Int64.toInt_ofNat_of_lt hlen]
  exact ⟨by omega, h⟩

theorem toNat_offset (h : 0 ≤ offset.toInt) : offset.toUInt64.toNat = offset.toInt.toNat :=
  Int64.toNat_toUInt64_of_le (Int64.le_iff_toInt_le.mpr h)

/-- No slice is out of range. -/
theorem overlay_eq (hoffset : 0 ≤ offset.toInt) (h : offset.toInt + piece.length < 2 ^ 63) :
    ∃ t, overlay s offset piece = some t ∧ Laid s offset.toInt.toNat piece t := by
  have hstop : (offset.toInt.toNat + piece.length) % 2 ^ 64 = offset.toInt.toNat + piece.length :=
    Nat.mod_eq_of_lt (by omega)
  refine ⟨_, ?_, laid_take_drop s offset.toInt.toNat piece⟩
  rw [overlay, toNat_offset hoffset]
  dsimp only
  rw [hstop, if_neg (by omega), if_neg (by omega)]

theorem overlay_eq_none (hlen : piece.length < 2 ^ 63) (hs : s.length < 2 ^ 63)
    (h : 2 ^ 63 ≤ offset.toInt + piece.length) : overlay s offset piece = none := by
  have hlt := offset.toInt_lt
  have hstop : (offset.toInt.toNat + piece.length) % 2 ^ 64 = offset.toInt.toNat + piece.length :=
    Nat.mod_eq_of_lt (by omega)
  rw [overlay, toNat_offset (by omega)]
  dsimp only
  rw [hstop, if_pos (by omega)]

end

section

variable [External] [Chrono] [Codec] [Vectors]

/-- A Redis string as a value: text when it is UTF-8, bytes otherwise. -/
def valueOf (b : Bytes) : Value :=
  match fromUtf8 b with
  | some s => .str s
  | none => .bytes b

/-- A value as a Redis string; documents are hashes or lists. -/
def bytesOf : Value → Option Bytes
  | .str s | .num s => some (asBytes s)
  | .bool b => some (asBytes (toString b))
  | .null => some []
  | .bytes b => some b
  | .doc _ | .typed _ => none
  | .date d => some (asBytes (Time.dateText d))
  | .dateTime t => some (asBytes (Chrono.iso t))
  | .time t => some (asBytes (Chrono.timeText t))

/-- What a text or bytes are stored as. -/
def stored : Value → Option Bytes
  | .str s => some (asBytes s)
  | .bytes b => some b
  | _ => none

/-- The text or the bytes stored as `raw`. -/
def restored (ty : Ty) (raw : Bytes) : Option Value :=
  match ty with
  | .string => (fromUtf8 raw).map .str
  | .bytes => some (.bytes raw)
  | _ => none

/-- Texts and bytes are stored as they are. -/
structure KeepsStrings : Prop where
  encode : ∀ v raw, stored v = some raw → Codec.encodeStored v false = .ok (raw, .json)
  decode : ∀ ty raw v, restored ty raw = some v → Codec.decode ty raw .json = .ok v

/-- The string at `k`, with its deadline. -/
def string (k : String) : Cmd (Option (Bytes × Int64)) := do
  match ← Cmd.get k with
  | none => return none
  | some (v, m) =>
      match bytesOf v with
      | some b => return some (b, m.expiresAt)
      | none => .fail .wrongType

def getCommand (args : List Bytes) : Cmd Reply := do
  Prog.ofExcept (arity args 2)
  let k ← Prog.ofExcept (key (args.getD 1 []))
  match ← Cmd.get k with
  | none => return .nil
  | some (v, _) =>
      match bytesOf v with
      | some b => return .bulk (some b)
      | none => .fail .wrongType

/-- The reply of `SETRANGE`; `none` when it panics. -/
def setRange (args : List Bytes) : Cmd (Option Reply) := do
  Prog.ofExcept (arity args 4)
  let k ← Prog.ofExcept (key (args.getD 1 []))
  let offset ← Prog.ofExcept (int (args.getD 2 []))
  if offset < 0 then .fail (.err "offset is out of range")
  else
    let piece := args.getD 3 []
    let (s, exp) := (← string k).getD ([], 0)
    if piece = [] then return some (.int (Int64.ofNat s.length))
    else if maxString < offset + Int64.ofNat piece.length then
      .fail (.err "string exceeds maximum allowed size (proto-max-bulk-len)")
    else
      match overlay s offset piece with
      | none => return none
      | some s =>
          Cmd.put k (valueOf s) exp
          return some (.int (Int64.ofNat s.length))

section

omit [External] [Codec] [Vectors]

theorem bytesOf_valueOf (b : Bytes) : bytesOf (valueOf b) = some b := by
  unfold valueOf
  cases h : fromUtf8 b with
  | none => rfl
  | some s => exact congrArg some (asBytes_of_fromUtf8 h)

theorem stored_valueOf (b : Bytes) : stored (valueOf b) = some b := by
  unfold valueOf
  cases h : fromUtf8 b with
  | none => rfl
  | some s => exact congrArg some (asBytes_of_fromUtf8 h)

theorem restored_valueOf (b : Bytes) : restored (valueOf b).ty b = some (valueOf b) := by
  unfold valueOf
  cases h : fromUtf8 b with
  | none => rfl
  | some s =>
      show (fromUtf8 b).map _ = _
      rw [h]
      rfl

theorem not_doc_valueOf (b : Bytes) : DocView.of (valueOf b) = none := by
  unfold valueOf
  split <;> rfl

end

omit [External] [Vectors] in
theorem KeepsStrings.decode_valueOf (h : KeepsStrings) {b raw : Bytes} {enc : DocEnc}
    (henc : Codec.encodeStored (valueOf b) false = .ok (raw, enc)) :
    Codec.decode (valueOf b).ty raw enc = .ok (valueOf b) := by
  rw [h.encode _ _ (stored_valueOf b)] at henc
  obtain ⟨rfl, rfl⟩ := Prod.mk.inj (Except.ok.inj henc)
  exact h.decode _ _ _ (restored_valueOf b)

namespace Conn

variable {c c₁ d : Conn} {args : List Bytes} {k : String} {offset : Int64} {old : Option (Bytes × Int64)}

/-- Nobody else writes before the next read, and a deadline `exp` has not passed then. -/
def Undisturbed (c : Conn) (exp : Int64) : Prop :=
  (c.site.moments 0).others = [] ∧ (exp ≤ 0 ∨ (c.site.moments 0).clock.now 0 < exp)

/-- Writes `t` and says how long it is. -/
def writing (k : String) (t : Bytes) (exp : Int64) : Cmd (Option Reply) := do
  Cmd.put k (valueOf t) exp
  return some (.int (Int64.ofNat t.length))

/-- `SETRANGE` over the string `old`: where it refuses it writes nothing, and otherwise it
writes the string with the piece laid over it, deadline kept, and `GET` gives it back. -/
structure Overlays (c c₁ : Conn) (args : List Bytes) (k : String) (offset : Int64) (s : Bytes) (exp : Int64) : Prop where
  refused : offset.toInt < 0 ∨ maxString.toInt < offset.toInt + (args.getD 3 []).length →
    ∃ why d, (d = c ∨ d = c₁) ∧ c.perform (setRange args) = (.error (.err why), d)
  stores : 0 ≤ offset.toInt → offset.toInt + (args.getD 3 []).length ≤ maxString.toInt →
    ∃ t, Laid s offset.toInt.toNat (args.getD 3 []) t ∧
      c.perform (setRange args) = c₁.perform (writing k t exp) ∧
      ∀ r d, c.perform (setRange args) = (.ok r, d) → d.Undisturbed exp →
        ∃ m e, d.perform (Cmd.get k) = (.ok (some (valueOf t, m)), e) ∧ m.expiresAt = exp ∧
          ∀ name, d.perform (getCommand [name, args.getD 1 []]) = (.ok (.bulk (some t)), e)

theorem perform_setRange (hargs : 4 ≤ args.length) (hkey : key (args.getD 1 []) = .ok k)
    (hint : int (args.getD 2 []) = .ok offset) (hpiece : args.getD 3 [] ≠ [])
    (hread : c.perform (string k) = (.ok old, c₁)) :
    c.perform (setRange args) =
      if offset < 0 then (.error (.err "offset is out of range"), c)
      else if maxString < offset + Int64.ofNat (args.getD 3 []).length then
        (.error (.err "string exceeds maximum allowed size (proto-max-bulk-len)"), c₁)
      else
        match overlay (old.getD ([], 0)).1 offset (args.getD 3 []) with
        | none => (.ok none, c₁)
        | some t => c₁.perform (writing k t (old.getD ([], 0)).2) := by
  have harity : arity args 4 = .ok () := if_neg (by omega)
  unfold setRange
  rw [harity, hkey, hint]
  simp only [Prog.ofExcept_ok_bind]
  split
  · rfl
  · rw [perform_bind, hread]
    dsimp only
    split
    · rfl
    · split
      · rfl
      · rfl

theorem perform_put {v : Value} {exp : Int64} (h : c.perform (Cmd.put k v exp) = (.ok (), d)) :
    Front.apply [.put k v exp false] c.site = .ok () d.site := by
  rw [Cmd.put, perform_asked] at h
  unfold answer lift at h
  dsimp only at h
  cases happly : Front.apply [.put k v exp false] c.site with
  | ok a site =>
      rw [happly] at h
      rw [← (Prod.mk.inj h).2]
  | error e site =>
      rw [happly] at h
      exact nomatch (Prod.mk.inj h).1

/-- What was put is what the next read gives. -/
theorem get_of_put (hcodec : KeepsStrings) {t : Bytes} {exp : Int64}
    (h : c.perform (Cmd.put k (valueOf t) exp) = (.ok (), d)) (hd : d.Undisturbed exp) :
    ∃ m e, d.perform (Cmd.get k) = (.ok (some (valueOf t, m)), e) ∧ m.expiresAt = exp := by
  obtain ⟨m, u, hget, hm⟩ := kvGet_of_put (perform_put h) (not_doc_valueOf t)
    (fun raw enc henc => hcodec.decode_valueOf henc) hd.1 hd.2
  refine ⟨m, { d with site := u }, ?_, hm⟩
  rw [Cmd.get, perform_asked]
  unfold answer lift
  dsimp only
  rw [hget]

theorem perform_getCommand {t : Bytes} {m : Meta} {arg : Bytes} (hkey : key arg = .ok k)
    (h : c.perform (Cmd.get k) = (.ok (some (valueOf t, m)), d)) (name : Bytes) :
    c.perform (getCommand [name, arg]) = (.ok (.bulk (some t)), d) := by
  have harity : arity [name, arg] 2 = .ok () := rfl
  unfold getCommand
  rw [harity, show ([name, arg].getD 1 [] : Bytes) = arg from rfl, hkey]
  simp only [Prog.ofExcept_ok_bind]
  rw [perform_bind, h]
  dsimp only
  rw [bytesOf_valueOf]
  rfl

theorem perform_writing {t : Bytes} {exp : Int64} {r : Option Reply} (h : c.perform (writing k t exp) = (.ok r, d)) :
    c.perform (Cmd.put k (valueOf t) exp) = (.ok (), d) := by
  rw [writing, perform_bind] at h
  rcases hput : c.perform (Cmd.put k (valueOf t) exp) with ⟨e | u, c'⟩
  · rw [hput] at h
    exact nomatch (Prod.mk.inj h).1
  · rw [hput] at h
    rw [← (Prod.mk.inj h).2]

section

variable (hargs : 4 ≤ args.length) (hkey : key (args.getD 1 []) = .ok k) (hint : int (args.getD 2 []) = .ok offset)
  (hpiece : args.getD 3 [] ≠ []) (hread : c.perform (string k) = (.ok old, c₁))

include hargs hkey hint hpiece hread

theorem overlays (hcodec : KeepsStrings) (h : offset.toInt + (args.getD 3 []).length < 2 ^ 63) :
    c.Overlays c₁ args k offset (old.getD ([], 0)).1 (old.getD ([], 0)).2 := by
  have hrun := perform_setRange hargs hkey hint hpiece hread
  constructor
  · intro hbad
    by_cases hneg : offset.toInt < 0
    · rw [if_pos (offset_neg.mpr hneg)] at hrun
      exact ⟨_, c, .inl rfl, hrun⟩
    · rw [if_neg (fun hlt => hneg (offset_neg.mp hlt)),
        if_pos ((maxString_lt (by omega) h).mpr (hbad.resolve_left hneg))] at hrun
      exact ⟨_, c₁, .inr rfl, hrun⟩
  · intro hpos hfits
    rw [if_neg (fun hlt => absurd (offset_neg.mp hlt) (Int.not_lt.mpr hpos)),
      if_neg (fun hlt => absurd ((maxString_lt (by omega) h).mp hlt) (Int.not_lt.mpr hfits))] at hrun
    obtain ⟨t, ht, hlaid⟩ := overlay_eq (s := (old.getD ([], 0)).1) hpos h
    rw [ht] at hrun
    refine ⟨t, hlaid, hrun, fun r d hd hquiet => ?_⟩
    obtain ⟨m, e, hget, hm⟩ := get_of_put hcodec (perform_writing (hrun.symm.trans hd)) hquiet
    exact ⟨m, e, hget, hm, perform_getCommand hkey hget⟩

/-- Beyond `i64::MAX` the sum wraps past the bound, and the buffer cannot be grown. -/
theorem not_overlays (hlen : (args.getD 3 []).length < 2 ^ 63) (hold : (old.getD ([], 0)).1.length < 2 ^ 63)
    (h : 2 ^ 63 ≤ offset.toInt + (args.getD 3 []).length) :
    ¬ c.Overlays c₁ args k offset (old.getD ([], 0)).1 (old.getD ([], 0)).2 := by
  intro hover
  have hrun := perform_setRange hargs hkey hint hpiece hread
  have hmax := toInt_maxString
  have hoffset := offset.toInt_lt
  have hwraps : ¬ maxString < offset + Int64.ofNat (args.getD 3 []).length := by
    rw [Int64.lt_iff_toInt_lt, toInt_add_of_ge (by rwa [Int64.toInt_ofNat_of_lt hlen]), Int64.toInt_ofNat_of_lt hlen]
    omega
  rw [if_neg (fun hlt => absurd (offset_neg.mp hlt) (by omega)), if_neg hwraps,
    overlay_eq_none hlen hold h] at hrun
  obtain ⟨why, d, -, herr⟩ := hover.refused (.inr (by omega))
  exact nomatch (Prod.mk.inj (herr.symm.trans hrun)).1

/-- `SETRANGE` is an overlay within bounds exactly where its bound is tested on a sum that
fits in 64 bits. -/
theorem overlays_iff (hcodec : KeepsStrings) (hlen : (args.getD 3 []).length < 2 ^ 63)
    (hold : (old.getD ([], 0)).1.length < 2 ^ 63) :
    c.Overlays c₁ args k offset (old.getD ([], 0)).1 (old.getD ([], 0)).2 ↔
      offset.toInt + (args.getD 3 []).length < 2 ^ 63 := by
  constructor
  · intro h
    by_contra hwraps
    exact not_overlays hargs hkey hint hpiece hread hlen hold (by omega) h
  · exact overlays hargs hkey hint hpiece hread hcodec

end

end Conn

end

section Samples

open Reference

/-- Texts and bytes as they are stored. -/
local instance stringCodec : Codec :=
  { codec [] with
    encodeStored := fun v msgpack =>
      match stored v with
      | some raw => .ok (raw, .json)
      | none => encodeStored v msgpack
    decode := fun ty raw enc =>
      match if enc = .json then restored ty raw else none with
      | some v => .ok v
      | none => decode [] ty raw enc }

theorem keepsStrings_sample : KeepsStrings where
  encode := fun v raw h => by
    show (match stored v with | some raw => _ | none => _) = _
    rw [h]
  decode := fun ty raw v h => by
    show (match if DocEnc.json = .json then restored ty raw else none with | some v => _ | none => _) = _
    rw [if_pos rfl, h]

/-- `abc` is stored under `k`, with a deadline. -/
def abc : Conn := ((connection server [] 5).perform (Cmd.put "k" (valueOf (asBytes "abc")) 9000)).2

def rangeOf (offset : String) : List Bytes := [asBytes "SETRANGE", asBytes "k", asBytes offset, [0xFF]]

def abcRead : Conn := (abc.perform (string "k")).2

example : ((abc.perform (setRange (rangeOf "4"))).2.perform (getCommand [[], asBytes "k"])).1 =
    .ok (.bulk (some (asBytes "abc" ++ [0, 0xFF]))) := by decide +kernel

theorem abc_read : abc.perform (string "k") = (.ok (some (asBytes "abc", 9000)), abcRead) := by
  have hfirst : (abc.perform (string "k")).1 = .ok (some (asBytes "abc", 9000)) := by decide +kernel
  rw [← hfirst]
  exact Prod.mk.eta.symm

theorem overlays_iff_abc : abc.Overlays abcRead (rangeOf "4") "k" 4 (asBytes "abc") 9000 ↔
    (4 : Int64).toInt + ([0xFF] : Bytes).length < 2 ^ 63 :=
  Conn.overlays_iff (by decide) (by decide) (by decide) (by decide) abc_read keepsStrings_sample
    (by decide) (by decide)

/-- The buffer would have to hold more than there is. -/
theorem setRange_panics : ¬ abc.Overlays abcRead (rangeOf "9223372036854775807") "k" 9223372036854775807 (asBytes "abc") 9000 :=
  Conn.not_overlays (by decide) (by decide) (by decide) (by decide) abc_read (by decide) (by decide)
    (by decide)

end Samples

end KivaDb.Resp
