import KivaDb.Engine.Commits
import KivaDb.Lib.Shadow

namespace KivaDb

open Lib.LittleEndian Lib.Utf8 Lib.Flags Lib.Fallible Format Crypt Log Relation

/-- What a key holds: the bytes of its value and what is known of them. -/
structure Content where
  ty : Ty
  raw : Bytes
  enc : DocEnc
  timestamp : Int64
  expiresAt : Int64
  deriving DecidableEq

section

variable [External]

namespace Write

/-- What the key holds after the write. -/
def content : Write → Option Content
  | put _ raw ty enc _ ts ex => some ⟨ty, raw.1, enc, ts, ex⟩
  | delete _ _ => none

theorem sealFlags_and {m : UInt8} (hm : hasFlag flagEncrypted m = false) (keys : Option Keys) (f : UInt8) :
    sealFlags keys f &&& m = f &&& m := by
  cases keys with
  | none => rfl
  | some k => exact or_and_of_hasFlag hm f

theorem docEnc_flags (keys : Option Keys) (role : Role) (raw : Bytes) (algo : Compression) (enc : DocEnc) :
    DocEnc.fromFlags (sealFlags keys ((Compress.pack raw algo).2 ||| role.extra ||| enc.flags)) = enc := by
  have hr (m : UInt8) (ht : hasFlag flagTxn m = false) (hc : hasFlag flagTxnCommit m = false) :
      hasFlag role.extra m = false := by
    cases role with
    | single => exact hasFlag_zero m
    | member => exact ht
    | commit => rw [Role.extra, hasFlag_or, ht, hc]; rfl
  simp only [DocEnc.fromFlags, hasFlag_sealFlags (m := flagKdoc) (by decide),
    hasFlag_sealFlags (m := flagMsgpack) (by decide), hasFlag_or, hasFlag_pack (m := flagKdoc) (by decide) (by decide),
    hasFlag_pack (m := flagMsgpack) (by decide) (by decide), hr flagKdoc (by decide) (by decide),
    hr flagMsgpack (by decide) (by decide), Bool.false_or]
  cases enc <;> decide

theorem compression_flags (keys : Option Keys) (role : Role) (raw : Bytes) (algo : Compression) (enc : DocEnc) :
    Compression.fromFlag (sealFlags keys ((Compress.pack raw algo).2 ||| role.extra ||| enc.flags) &&& flagCompMask) =
      Compression.fromFlag (Compress.pack raw algo).2 := by
  have henc : hasFlag enc.flags flagCompMask = false := by
    cases enc <;> decide
  rw [sealFlags_and (by decide), or_and_of_hasFlag henc, or_and_of_hasFlag (extra_compMask role)]
  rcases Compress.pack_flag_le raw algo with h | h
  · rw [h]
    decide
  · rw [h]
    cases algo <;> decide

/-- What an entry says is what was written. -/
theorem entry_content {w : Write} {keys : Option Keys} {role : Role} {pos : Nat} {e : Entry}
    (h : w.entry keys role.extra pos = some e) :
    e.offset = pos ∧ e.recLen = w.recLen keys ∧ ∃ raw, Compress.unpack w.stored e.compression = .ok raw ∧
      w.content = some ⟨e.ty, raw, e.docEnc, e.timestamp, e.expiresAt⟩ := by
  cases w with
  | delete key ts => simp [entry] at h
  | put key raw ty enc algo ts ex =>
      obtain rfl := Option.some.inj h
      have hk : (UInt16.ofNat (asBytes key.1).length).toNat = (asBytes key.1).length := by
        rw [UInt16.toNat_ofNat', Nat.mod_eq_of_lt key.length_lt]
      have hv : (UInt32.ofNat ((Compress.pack raw.1 algo).1.length + overhead keys)).toNat =
          (Compress.pack raw.1 algo).1.length + overhead keys := by
        rw [UInt32.toNat_ofNat', Nat.mod_eq_of_lt]
        exact (put key raw ty enc algo ts ex).stored_overhead_lt keys
      refine ⟨rfl, ?_, raw.1, ?_, ?_⟩
      · simp only [Entry.recLen, hk, hv, recLen, stored]
        rfl
      · simp only [Entry.compression, compression_flags]
        exact Compress.unpack_pack raw.2 algo
      · simp only [content, Entry.docEnc, docEnc_flags]

end Write

/-- The record passes its check, stamped or not. -/
theorem Log.Written.verify {keys : Option Keys} {w : Write} {role : Role} {rec : Bytes}
    (h : Written keys w role rec) : verifyRecord rec = true := by
  have hv (f : UInt8) {body : Bytes}
      (hb : body.length = (asBytes w.key.1).length + (w.stored.length + overhead keys)) :
      verifyRecord (withCrc (recHead (asBytes w.key.1).length (w.stored.length + overhead keys) w.tyCode f
        w.timestamp w.expiresAt ++ body)) = true :=
    verifyRecord_withCrc _ _ _ _ w.key.length_lt (w.stored_overhead_lt keys) hb
  cases role with
  | single =>
      obtain ⟨nonce, h⟩ := h
      obtain ⟨body, hb, rfl⟩ := Write.encode_ok h
      exact hv _ hb
  | member =>
      obtain ⟨nonce, h⟩ := h
      obtain ⟨body, hb, rfl⟩ := Write.encode_ok h
      exact hv _ hb
  | commit =>
      obtain ⟨nonce, r, h, rfl⟩ := h
      obtain ⟨body, hb, rfl⟩ := Write.encode_ok h
      rw [stampCommit_withCrc]
      exact hv _ hb

theorem Log.Written.openRecord_eq {ks keys : Option Keys} {w : Write} {role : Role} {rec : Bytes}
    (hr : role.Readable keys) (hc : CanOpen ks keys) (h : Written keys w role rec) :
    openRecord ks rec = .ok (asBytes w.key.1, w.stored) := by
  cases role with
  | single => obtain ⟨nonce, h⟩ := h; exact Write.openRecord_encode (extra_encrypted _) hc h
  | member => obtain ⟨nonce, h⟩ := h; exact Write.openRecord_encode (extra_encrypted _) hc h
  | commit =>
      obtain rfl := hr rfl
      obtain ⟨nonce, r, h, rfl⟩ := h
      exact Write.openRecord_encode (extra_encrypted .commit) hc (Write.stampCommit_encode h)

theorem Log.Written.openRecord_commit {ks : Option Keys} {k : Keys} {w : Write} {rec : Bytes}
    (hc : CanOpen ks (some k)) (h : Written (some k) w .commit rec) : openRecord ks rec = .error .tampered := by
  obtain ⟨nonce, r, h, rfl⟩ := h
  exact openRecord_stampCommit_sealed
    ((Write.hasFlag_flags Write.foreign_txnCommit (by decide) _ w).trans (by decide)) hc h

end

section

variable [External] [Chrono] [Vectors]

namespace Inner

/-- What `key` holds at `now`, if it is there and if it can be read. -/
def content (i : Inner) (key : String) (now : Int64) : Option (Result Content) :=
  (i.at? key now).map fun e =>
    (i.readRaw key e).map fun raw => ⟨e.ty, raw, e.docEnc, e.timestamp, e.expiresAt⟩

/-- Every entry points to bytes of the file past its header. -/
structure Placed (i : Inner) : Prop where
  header : fileHeaderLen ≤ i.file.length
  entries : ∀ (k : String) (e : Entry), i.index[k]? = some e → fileHeaderLen ≤ e.offset ∧ e.offset + e.recLen ≤ i.file.length

theorem raiseFormat_eq (i : Inner) (need : UInt32) :
    i.raiseFormat need = { i with file := (i.raiseFormat need).file, format := (i.raiseFormat need).format } := by
  unfold raiseFormat
  split <;> rfl

theorem length_raiseFormat {i : Inner} (h : fileHeaderLen ≤ i.file.length) (need : UInt32) :
    (i.raiseFormat need).file.length = i.file.length := by
  have h16 : fileHeaderLen = 16 := rfl
  unfold raiseFormat
  split
  · simp only [List.length_append, List.length_take, length_le32, List.length_drop]
    omega
  · rfl

theorem drop_raiseFormat {i : Inner} (h : fileHeaderLen ≤ i.file.length) (need : UInt32) {n : Nat} (hn : 8 ≤ n) :
    (i.raiseFormat need).file.drop n = i.file.drop n := by
  have h16 : fileHeaderLen = 16 := rfl
  unfold raiseFormat
  split
  · have hp : (i.file.take 4 ++ le32 need).length = 8 := by
      simp only [List.length_append, List.length_take, length_le32]
      omega
    obtain ⟨m, rfl⟩ := Nat.exists_eq_add_of_le hn
    simp only
    rw [← List.append_assoc, ← List.drop_drop, List.drop_left' hp, List.drop_drop]
  · rfl

theorem file_extend (i : Inner) (buf : Bytes) :
    (i.extend buf).file = (i.raiseFormat (formatNeeded buf)).file ++ buf := rfl

theorem index_extend (i : Inner) (buf : Bytes) : (i.extend buf).index = i.index := by
  rw [extend, raiseFormat_eq]
  rfl

theorem readAt_extend {i : Inner} (h : fileHeaderLen ≤ i.file.length) (buf : Bytes) {off len : Nat} (ho : fileHeaderLen ≤ off)
    (hb : off + len ≤ i.file.length) : (i.extend buf).readAt off len = i.readAt off len := by
  have h16 : fileHeaderLen = 16 := rfl
  have hl := length_raiseFormat h (formatNeeded buf)
  rw [readAt, readAt, file_extend, if_pos (by rw [List.length_append]; omega), if_pos hb,
    slice_append_left buf (by omega), slice, slice, drop_raiseFormat h _ (by omega)]

theorem keys_extend (i : Inner) (buf : Bytes) : (i.extend buf).keys = i.keys := by
  rw [extend, raiseFormat_eq]

/-- Appending changes nothing of what keys hold. -/
theorem content_extend {i : Inner} (h : i.Placed) (buf : Bytes) (key : String) (now : Int64) :
    (i.extend buf).content key now = i.content key now := by
  have hat : (i.extend buf).at? key now = i.at? key now := by rw [at?, at?, index_extend]
  rw [content, content, hat]
  apply Option.map_congr
  intro e he
  have hx : i.index[key]? = some e := (Option.filter_eq_some_iff.mp he).1
  obtain ⟨ho, hb⟩ := h.entries key e hx
  simp only [readRaw, readRecord, readAt_extend h.header buf ho hb, keys_extend]

theorem readAt_append {i : Inner} {pre rec post : Bytes} (hf : i.file = pre ++ (rec ++ post)) :
    i.readAt pre.length rec.length = some rec := by
  rw [readAt, hf, if_pos (by simp), slice_eq_of_append rfl rfl rfl]

theorem readRaw_eq {i : Inner} {key : String} {e : Entry} {rec k stored raw : Bytes}
    (hr : i.readAt e.offset e.recLen = some rec) (hv : verifyRecord rec = true)
    (ho : openRecord i.keys rec = .ok (k, stored)) (hu : Compress.unpack stored e.compression = .ok raw) :
    i.readRaw key e = .ok raw := by
  simp only [readRaw, readRecord, hr, hv, if_true, ho, hu, bind, Except.bind]

end Inner

/-- The command a staged operation carries out. -/
def Staged.cmd : Staged → Lib.Shadow.Cmd String Content
  | put key e raw _ _ _ => .put key ⟨e.ty, raw, e.docEnc, e.timestamp, e.expiresAt⟩
  | del key => .del key

/-- The record of a staged put gives back its value. -/
def Legible (keys : Option Keys) (p : Staged × Bytes) : Prop :=
  match p.1 with
  | .put _ e raw _ _ _ => e.recLen = p.2.length ∧ verifyRecord p.2 = true ∧
      ∃ k stored, openRecord keys p.2 = .ok (k, stored) ∧ Compress.unpack stored e.compression = .ok raw
  | .del _ => True

omit [Vectors] in
/-- A recorded put gives back its value, unless its record is the commit record
of an encrypted batch. -/
theorem Recorded.legible {keys : Option Keys} {w : Write} {role : Role} {p : Staged × Bytes}
    (h : Recorded keys w role p) (hr : role.Readable keys) : Legible keys p := by
  obtain ⟨s, rec⟩ := p
  cases s with
  | del key => exact trivial
  | put key e raw doc ty created =>
      obtain ⟨-, hlen, raw', hu, hc⟩ := Write.entry_content h.entry.symm
      have hraw : raw' = raw := by
        cases w with
        | put wk wr wty wenc walgo wts wex =>
            have h1 : raw = wr.1 := Option.some.inj h.raw
            have h2 : wr.1 = raw' := congrArg Content.raw (Option.some.inj hc)
            rw [← h2, h1]
        | delete wk wts => simp [Write.content] at hc
      exact ⟨hlen.trans h.written.length_eq.symm, h.written.verify, _, _,
        h.written.openRecord_eq hr (canOpen_self keys), hraw ▸ hu⟩

/-- The value is still there at `now`. -/
def Content.alive (now : Int64) (c : Content) : Bool := !(0 < c.expiresAt && c.expiresAt ≤ now)

theorem readRaw_congr {i j : Inner} (hf : i.file = j.file) (hk : i.keys = j.keys) (key : String) (e : Entry) :
    i.readRaw key e = j.readRaw key e := by
  simp only [Inner.readRaw, Inner.readRecord, Inner.readAt, hf, hk]

theorem content_congr {i j : Inner} (hf : i.file = j.file) (hk : i.keys = j.keys) {key : String}
    (hx : i.index[key]? = j.index[key]?) (now : Int64) : i.content key now = j.content key now := by
  simp only [Inner.content, Inner.at?, hx, readRaw_congr hf hk]

variable [Codec]

/-- A put that can be encoded, outside of a commit record, holds what it was
given and is on record. -/
theorem buildPut_recorded {i : Inner} {key : String} {value : Value} {ex ts : Int64} {msgpack : Bool} {role : Role}
    {nonce : Draw} {rec raw : Bytes} {entry : Entry} (hrole : role ≠ .commit)
    (h : buildPut i key value ex msgpack ts role.extra nonce = .ok (rec, entry, raw)) :
    ∃ enc, Codec.encodeStored value (msgpack && value.ty.isDoc) = .ok (raw, enc) ∧
      (⟨entry.ty, raw, entry.docEnc, entry.timestamp, entry.expiresAt⟩ : Content) = ⟨value.ty, raw, enc, ts, ex⟩ ∧
      ∀ doc ty created, ∃ w, Recorded i.keys w role (.put key entry raw doc ty created, rec) := by
  obtain ⟨hk, enc, hr, henc, hw, he⟩ := buildPut_ok h
  obtain ⟨-, -, raw', -, hc⟩ := Write.entry_content he
  have hwritten : Written i.keys (.put ⟨key, hk⟩ ⟨raw, hr⟩ value.ty enc i.compression ts ex) role rec := by
    cases role with
    | single => exact ⟨nonce, hw⟩
    | member => exact ⟨nonce, hw⟩
    | commit => exact absurd rfl hrole
  refine ⟨enc, henc, ?_, fun doc ty created => ⟨_, hwritten, rfl, rfl, he.symm⟩⟩
  have hcontent : (⟨value.ty, raw, enc, ts, ex⟩ : Content) = ⟨entry.ty, raw', entry.docEnc, entry.timestamp,
      entry.expiresAt⟩ := Option.some.inj hc
  obtain rfl : raw = raw' := congrArg Content.raw hcontent
  exact hcontent.symm

theorem content_applyStaged_ne (i : Inner) (offset : Nat) (s : Staged) {k : String} (hk : s.key ≠ k) (now : Int64) :
    (i.applyStaged offset s).content k now = i.content k now := by
  apply content_congr
  · rw [Inner.applyStaged_frame]
  · rw [Inner.applyStaged_frame]
  · rw [Inner.getElem?_applyStaged, if_neg hk]

theorem content_applyStaged_put (i : Inner) (offset : Nat) (key : String) (e : Entry) (raw : Bytes)
    (doc : Option DocView) (ty : Ty) (created : Bool) (now : Int64) :
    (i.applyStaged offset (.put key e raw doc ty created)).content key now =
      if e.isExpired now then none
      else some ((i.readRaw key { e with offset }).map fun raw => ⟨e.ty, raw, e.docEnc, e.timestamp, e.expiresAt⟩) := by
  have hindex : (i.applyStaged offset (.put key e raw doc ty created)).index[key]? =
      some { e with offset, version := i.seq + 1 } :=
    Inner.getElem?_applyStaged_self i offset (.put key e raw doc ty created)
  have hread : (i.applyStaged offset (.put key e raw doc ty created)).readRaw key
      { e with offset, version := i.seq + 1 } = i.readRaw key { e with offset } := by
    rw [readRaw_congr (j := i) (by rw [Inner.applyStaged_frame]) (by rw [Inner.applyStaged_frame])]
    rfl
  have hx : ({ e with offset, version := i.seq + 1 } : Entry).isExpired now = e.isExpired now := rfl
  rw [Inner.content, Inner.at?, hindex]
  cases he : e.isExpired now with
  | true => simp [Option.filter, hx, he]
  | false =>
      simp only [Option.filter, hx, he]
      simp only [Bool.false_eq_true, not_false_eq_true, decide_true, if_true, Option.map_some, hread, if_false]
      rfl

theorem content_applyStaged {i : Inner} {p : Staged × Bytes} {pre post : Bytes} (hl : Legible i.keys p)
    (hf : i.file = pre ++ (p.2 ++ post)) (now : Int64) :
    (fun k => (i.applyStaged pre.length p.1).content k now) =
      Lib.Shadow.final (Content.alive now) Except.ok (fun k => i.content k now) [p.1.cmd] := by
  funext k
  obtain ⟨s, rec⟩ := p
  by_cases hk : s.key = k
  · cases s with
    | put key e raw doc ty created =>
        obtain ⟨hlen, hv, kb, stored, ho, hu⟩ := hl
        obtain rfl : key = k := hk
        have hread : i.readRaw key { e with offset := pre.length } = .ok raw := by
          refine Inner.readRaw_eq ?_ hv ho hu
          have hat := Inner.readAt_append (i := i) hf
          rw [← hlen] at hat
          exact hat
        have ha : Content.alive now ⟨e.ty, raw, e.docEnc, e.timestamp, e.expiresAt⟩ = !e.isExpired now := rfl
        rw [content_applyStaged_put, hread]
        cases he : e.isExpired now with
        | true => simp [Staged.cmd, Lib.Shadow.final, ha, he]
        | false => simp [Staged.cmd, Lib.Shadow.final, ha, he, Except.map]
    | del key =>
        obtain rfl : key = k := hk
        have hindex : (i.applyStaged pre.length (.del key)).index[key]? = none :=
          Inner.getElem?_applyStaged_self i pre.length (.del key)
        simp [Inner.content, Inner.at?, hindex, Staged.cmd, Lib.Shadow.final]
  · rw [content_applyStaged_ne i pre.length s hk]
    cases s with
    | put key e raw doc ty created =>
        have hne : k ≠ key := Ne.symm hk
        simp [Staged.cmd, Lib.Shadow.final, hne]
    | del key =>
        have hne : k ≠ key := Ne.symm hk
        simp [Staged.cmd, Lib.Shadow.final, hne]

/-- What keys hold after staged operations whose records the file ends with. -/
theorem content_applyAllStaged (ps : List (Staged × Bytes)) {i : Inner} {pre post : Bytes}
    (hl : ∀ p ∈ ps, Legible i.keys p) (hf : i.file = pre ++ (ps.flatMap Prod.snd ++ post)) (now : Int64) :
    (fun k => (i.applyAllStaged pre.length ps).content k now) =
      Lib.Shadow.final (Content.alive now) Except.ok (fun k => i.content k now) (ps.map (·.1.cmd)) := by
  induction ps generalizing i pre with
  | nil => rfl
  | cons p ps ih =>
      have hfr := Inner.applyStaged_frame i pre.length p.1
      have hf1 : i.file = pre ++ (p.2 ++ (ps.flatMap Prod.snd ++ post)) := by
        rw [hf, List.flatMap_cons, List.append_assoc]
      have hf2 : (i.applyStaged pre.length p.1).file = pre ++ p.2 ++ (ps.flatMap Prod.snd ++ post) := by
        rw [hfr, List.append_assoc]
        exact hf1
      have hl2 : ∀ q ∈ ps, Legible (i.applyStaged pre.length p.1).keys q := by
        intro q hq
        rw [hfr]
        exact hl q (List.mem_cons_of_mem p hq)
      have hi := ih hl2 hf2
      rw [List.length_append] at hi
      rw [Inner.applyAllStaged, hi, content_applyStaged (hl p List.mem_cons_self) hf1]
      cases hc : p.1.cmd with
      | put key c => simp [Lib.Shadow.final, hc]
      | del key => simp [Lib.Shadow.final, hc]

/-- What keys hold after a commit, all of whose records can be read. -/
theorem content_commit {i : Inner} (h : i.Placed) {recs : List (Staged × Bytes)} (hl : ∀ p ∈ recs, Legible i.keys p)
    (now : Int64) :
    (fun k => (i.commit recs).content k now) =
      Lib.Shadow.final (Content.alive now) Except.ok (fun k => i.content k now) (recs.map (·.1.cmd)) := by
  have hf : (i.extend (recs.flatMap Prod.snd)).file =
      (i.raiseFormat (formatNeeded (recs.flatMap Prod.snd))).file ++ (recs.flatMap Prod.snd ++ []) := by
    rw [List.append_nil, Inner.file_extend]
  have hc := content_applyAllStaged recs (by rw [Inner.keys_extend]; exact hl) hf now
  rw [Inner.commit, hc]
  congr 1
  funext k
  exact Inner.content_extend h _ k now

/-- The entry of a staged put frames its record. -/
def Fits (p : Staged × Bytes) : Prop := ∀ e ∈ p.1.entry, e.recLen = p.2.length

omit [Codec] [Vectors] in
theorem Legible.fits {keys : Option Keys} {p : Staged × Bytes} (h : Legible keys p) : Fits p := by
  obtain ⟨s, rec⟩ := p
  cases s with
  | put key e raw doc ty created =>
      rintro _ ⟨⟩
      exact h.1
  | del key => simp [Fits, Staged.entry]

theorem placed_applyStaged {i : Inner} (h : i.Placed) {p : Staged × Bytes} {pre post : Bytes} (hp : Fits p)
    (hf : i.file = pre ++ (p.2 ++ post)) (hpre : fileHeaderLen ≤ pre.length) :
    (i.applyStaged pre.length p.1).Placed := by
  have hfile : (i.applyStaged pre.length p.1).file = i.file := by rw [Inner.applyStaged_frame]
  refine ⟨hfile ▸ h.header, fun k e he => ?_⟩
  rw [Inner.getElem?_applyStaged] at he
  rw [hfile]
  split at he
  · obtain ⟨e', he', rfl⟩ := Option.map_eq_some_iff.mp he
    have hl := hp e' he'
    have hr : ({ e' with offset := pre.length, version := i.seq + 1 } : Entry).recLen = e'.recLen := rfl
    refine ⟨hpre, ?_⟩
    rw [hr, hl, hf]
    simp
  · exact h.entries k e he

theorem placed_applyAllStaged (ps : List (Staged × Bytes)) {i : Inner} (h : i.Placed) {pre post : Bytes}
    (hp : ∀ p ∈ ps, Fits p) (hf : i.file = pre ++ (ps.flatMap Prod.snd ++ post)) (hpre : fileHeaderLen ≤ pre.length) :
    (i.applyAllStaged pre.length ps).Placed := by
  induction ps generalizing i pre with
  | nil => exact h
  | cons p ps ih =>
      have hf1 : i.file = pre ++ (p.2 ++ (ps.flatMap Prod.snd ++ post)) := by
        rw [hf, List.flatMap_cons, List.append_assoc]
      have hf2 : (i.applyStaged pre.length p.1).file = pre ++ p.2 ++ (ps.flatMap Prod.snd ++ post) := by
        rw [Inner.applyStaged_frame, List.append_assoc]
        exact hf1
      have hi := ih (placed_applyStaged h (hp p List.mem_cons_self) hf1 hpre)
        (fun q hq => hp q (List.mem_cons_of_mem p hq)) hf2 (by rw [List.length_append]; omega)
      rw [List.length_append] at hi
      exact hi

omit [Codec] in
theorem placed_extend {i : Inner} (h : i.Placed) (buf : Bytes) : (i.extend buf).Placed := by
  have hl := Inner.length_raiseFormat h.header (formatNeeded buf)
  have hh := h.header
  refine ⟨?_, fun k e he => ?_⟩
  · rw [Inner.file_extend, List.length_append]
    omega
  · rw [Inner.index_extend] at he
    have hb := h.entries k e he
    rw [Inner.file_extend, List.length_append]
    omega

theorem placed_commit {i : Inner} (h : i.Placed) {recs : List (Staged × Bytes)} (hp : ∀ p ∈ recs, Fits p) :
    (i.commit recs).Placed := by
  refine @placed_applyAllStaged _ _ _ _ recs _ (placed_extend h _) _ [] hp ?_ ?_
  · rw [List.append_nil, Inner.file_extend]
  · rw [Inner.length_raiseFormat h.header]
    exact h.header

omit [Codec] in
theorem placed_drops {i i' : Inner} {now : Int64} (h : i.Placed) (hd : ReflTransGen (Drop now) i i') : i'.Placed := by
  have hfile : i'.file = i.file := by rw [Drop.frame_star hd]
  refine ⟨hfile ▸ h.header, fun k e he => ?_⟩
  rw [hfile]
  rcases Drop.index_star hd k with hk | hk
  · exact h.entries k e (hk ▸ he)
  · rw [hk.1] at he
    exact absurd he (by simp)

omit [Codec] in
theorem content_drops {i i' : Inner} {now : Int64} (hd : ReflTransGen (Drop now) i i') {t : Int64} (ht : now ≤ t)
    (key : String) : i'.content key t = i.content key t := by
  have hf : i'.file = i.file := by rw [Drop.frame_star hd]
  have hk : i'.keys = i.keys := by rw [Drop.frame_star hd]
  simp only [Inner.content, Drop.at?_star hd ht, readRaw_congr hf hk]

end

end KivaDb
