import KivaDb.Log

namespace KivaDb.Log

open Lib.LittleEndian Lib.Utf8 Lib.Flags Format Crypt

/-- The bytes of one whole record, as its own header frames it. -/
structure Framed (rec : Bytes) : Prop where
  header : recHeaderLen ≤ rec.length
  key : (parseHeader rec).kSize ≠ 0
  total : (parseHeader rec).totalLen = rec.length

theorem parseHeader_append {rec : Bytes} (h : recHeaderLen ≤ rec.length) (rest : Bytes) :
    parseHeader (rec ++ rest) = parseHeader rec := by
  have hl : 28 ≤ rec.length := h
  simp only [parseHeader, u32At, u16At, i64At, u64At]
  rw [slice_append_left rest (by omega), slice_append_left rest (by omega), slice_append_left rest (by omega),
    slice_append_left rest (by omega), slice_append_left rest (by omega), u8At_append_left rest (by omega),
    u8At_append_left rest (by omega)]

theorem nextFrame_append {rec : Bytes} (h : Framed rec) (rest : Bytes) :
    nextFrame (rec ++ rest) = some (rec, rest) := by
  have hh := h.header
  have hl : ¬ (rec ++ rest).length < recHeaderLen := by
    rw [List.length_append]
    omega
  rw [nextFrame, if_neg hl]
  simp only [parseHeader_append hh, h.total]
  rw [if_neg (by simp [h.key]), List.take_left' rfl, List.drop_left' rfl]

theorem nextFrame_nil : nextFrame [] = none := rfl

theorem nextFrame_torn {rec : Bytes} (h : Framed rec) {n : Nat} (hn : n < rec.length) :
    nextFrame (rec.take n) = none := by
  have hl : (rec.take n).length = n := by
    rw [List.length_take]
    omega
  rw [nextFrame, hl]
  split
  · rfl
  · rename_i hn'
    have hp : parseHeader (rec.take n) = parseHeader rec := by
      conv_rhs => rw [← List.take_append_drop n rec]
      exact (parseHeader_append (by omega) _).symm
    simp only [hp, h.total]
    rw [if_pos (.inr hn)]

theorem length_of_nextFrame {rest rec rest' : Bytes} (h : nextFrame rest = some (rec, rest')) :
    rest'.length < rest.length := by
  unfold nextFrame at h
  split at h
  · simp at h
  · rename_i hr
    simp only [Option.ite_none_left_eq_some, Option.some.injEq, Prod.mk.injEq] at h
    obtain ⟨hk, -, rfl⟩ := h
    have ht : recHeaderLen ≤ (parseHeader rest).totalLen := by
      simp only [RecHeader.totalLen]
      omega
    have h28 : recHeaderLen = 28 := rfl
    rw [List.length_drop]
    omega

variable [External]

theorem framed_withCrc {kLen vLen : Nat} (ty flags : UInt8) (ts ex : Int64) {body : Bytes} (h0 : 0 < kLen)
    (hk : kLen < 2 ^ 16) (hv : vLen < 2 ^ 32) (hb : body.length = kLen + vLen) :
    Framed (withCrc (recHead kLen vLen ty flags ts ex ++ body)) := by
  have hkn : (UInt16.ofNat kLen).toNat = kLen := by
    rw [UInt16.toNat_ofNat', Nat.mod_eq_of_lt hk]
  have hvn : (UInt32.ofNat vLen).toNat = vLen := by
    rw [UInt32.toNat_ofNat', Nat.mod_eq_of_lt hv]
  have hl : (withCrc (recHead kLen vLen ty flags ts ex ++ body)).length = recHeaderLen + kLen + vLen := by
    simp only [length_withCrc, List.length_append, length_recHead, hb, recHeaderLen]
    omega
  refine ⟨by omega, ?_, ?_⟩
  · rw [parseHeader_withCrc]
    intro h
    have hz := congrArg UInt16.toNat h
    rw [hkn] at hz
    exact (Nat.ne_of_gt h0) hz
  · rw [parseHeader_withCrc, hl, RecHeader.totalLen, hkn, hvn]

section

variable {σ : Type} (apply : σ → Change → σ) (keys : Option Keys) (req : Bool)

/-- Any fuel that covers the bytes left gives the same result. -/
theorem scanFrom_fuel {fuel fuel' : Nat} (s : Scan σ) (rest : Bytes) (h : rest.length ≤ fuel)
    (h' : rest.length ≤ fuel') : scanFrom apply keys req fuel s rest = scanFrom apply keys req fuel' s rest := by
  induction fuel generalizing fuel' s rest with
  | zero =>
      have hn : rest = [] := List.length_eq_zero_iff.mp (Nat.le_zero.mp h)
      subst hn
      cases fuel' with
      | zero => rfl
      | succ f => rfl
  | succ f ih =>
      cases fuel' with
      | zero =>
          have hn : rest = [] := List.length_eq_zero_iff.mp (Nat.le_zero.mp h')
          subst hn
          rfl
      | succ f' =>
          rw [scanFrom, scanFrom]
          cases hnf : nextFrame rest with
          | none => rfl
          | some p =>
              obtain ⟨rec, rest'⟩ := p
              have hlt := length_of_nextFrame hnf
              have hstep (t : Scan σ) : scanFrom apply keys req f t rest' = scanFrom apply keys req f' t rest' :=
                ih t rest' (by omega) (by omega)
              simp only [hstep]

/-- The replay of `rest` from the state `s`. -/
def scan (s : Scan σ) (rest : Bytes) : Result (Scan σ) := scanFrom apply keys req rest.length s rest

theorem replay_eq_scan (file : Bytes) (start : Nat) (acc : σ) :
    replay apply keys req file start acc = scan apply keys req (Scan.start start acc) (file.drop start) :=
  scanFrom_fuel apply keys req _ _ (by simp) le_rfl

theorem scan_stop (s : Scan σ) {rest : Bytes} (h : nextFrame rest = none) : scan apply keys req s rest = .ok s := by
  rw [scan]
  cases hr : rest.length with
  | zero => rfl
  | succ n => simp only [scanFrom, h]

theorem scan_frame (s : Scan σ) {rec : Bytes} (h : Framed rec) (rest : Bytes) :
    scan apply keys req s (rec ++ rest) = (readRecord keys req s.pos rec >>= fun r =>
      match r with
      | none => if rest = [] then .ok s else scan apply keys req (s.skip rec.length) rest
      | some c => scan apply keys req (s.take apply (parseHeader rec).flags c rec.length) rest) := by
  have hl : (rec ++ rest).length = (rec.length - 1 + rest.length) + 1 := by
    have hh := h.header
    have h28 : recHeaderLen = 28 := rfl
    rw [List.length_append]
    omega
  have hstep (t : Scan σ) : scanFrom apply keys req (rec.length - 1 + rest.length) t rest = scan apply keys req t rest :=
    scanFrom_fuel apply keys req t rest (by omega) le_rfl
  rw [scan, hl, scanFrom, nextFrame_append h]
  refine bind_congr fun r => ?_
  cases r with
  | none => exact congrArg (ite (rest = []) _) (hstep _)
  | some c => exact hstep _

theorem scan_valid {s : Scan σ} {rec rest : Bytes} {c : Change} (h : Framed rec)
    (hr : readRecord keys req s.pos rec = .ok (some c)) :
    scan apply keys req s (rec ++ rest) =
      scan apply keys req (s.take apply (parseHeader rec).flags c rec.length) rest := by
  rw [scan_frame apply keys req s h, hr]
  rfl

theorem scan_invalid {s : Scan σ} {rec rest : Bytes} (h : Framed rec)
    (hr : readRecord keys req s.pos rec = .ok none) (hn : rest ≠ []) :
    scan apply keys req s (rec ++ rest) = scan apply keys req (s.skip rec.length) rest := by
  rw [scan_frame apply keys req s h, hr]
  exact if_neg hn

theorem scan_invalid_last {s : Scan σ} {rec : Bytes} (h : Framed rec)
    (hr : readRecord keys req s.pos rec = .ok none) : scan apply keys req s rec = .ok s := by
  have hs := scan_frame apply keys req s h []
  rw [List.append_nil, hr] at hs
  exact hs

end

end KivaDb.Log

namespace KivaDb.Log

open Lib.LittleEndian Lib.Utf8 Lib.Flags Format Crypt

/-- The marks a write may carry beside what its own value says: none for a
single record, those of a batch for its members and its commit record. -/
inductive Role
  | single
  | member
  | commit
  deriving DecidableEq, Repr

def Role.extra : Role → UInt8
  | single => 0
  | member => flagTxn
  | commit => flagTxn ||| flagTxnCommit

theorem extra_encrypted (r : Role) : hasFlag r.extra flagEncrypted = false := by
  cases r <;> decide

theorem extra_tombstone (r : Role) : hasFlag r.extra flagTombstone = false := by
  cases r <;> decide

theorem extra_compMask (r : Role) : hasFlag r.extra flagCompMask = false := by
  cases r <;> decide

variable [External]

/-- The record checks out against its own checksum. -/
def Sums (rec : Bytes) : Prop := External.crc32 (rec.drop 4) = (parseHeader rec).crc

theorem sums_withCrc (kLen vLen : Nat) (ty flags : UInt8) (ts ex : Int64) (body : Bytes) :
    Sums (withCrc (recHead kLen vLen ty flags ts ex ++ body)) := by
  rw [Sums, drop_withCrc, parseHeader_withCrc]

theorem opened_ok {ks : Option Keys} {req : Bool} (pos : Nat) {rec : Bytes} {kv : Bytes × Bytes} (hs : Sums rec)
    (ho : openRecord ks rec = .ok kv) (hq : req = true → hasFlag (parseHeader rec).flags flagEncrypted = true) :
    opened ks req pos rec = .ok (some kv) := by
  have hc : External.crc32 (rec.drop 4) = (parseHeader rec).crc := hs
  simp only [opened, ne_eq, hc, not_true_eq_false, if_false]
  cases he : hasFlag (parseHeader rec).flags flagEncrypted with
  | true => simp only [if_true, ho]
  | false =>
      cases req with
      | true => simp [he] at hq
      | false =>
          simp only [openRecord, he] at ho
          simpa using ho

theorem opened_tampered {ks : Option Keys} (req : Bool) (pos : Nat) {rec : Bytes} (hs : Sums rec)
    (he : hasFlag (parseHeader rec).flags flagEncrypted = true) (ho : openRecord ks rec = .error .tampered) :
    opened ks req pos rec = .ok none := by
  have hc : External.crc32 (rec.drop 4) = (parseHeader rec).crc := hs
  simp only [opened, ne_eq, hc, not_true_eq_false, if_false, he, if_true, ho]

theorem readRecord_of_opened_none {ks : Option Keys} {req : Bool} {pos : Nat} {rec : Bytes}
    (h : opened ks req pos rec = .ok none) : readRecord ks req pos rec = .ok none := by
  simp only [readRecord, h, bind, Except.bind]

/-- A record that fails its checksum is not valid. -/
theorem readRecord_damaged (ks : Option Keys) (req : Bool) (pos : Nat) {rec : Bytes} (h : ¬ Sums rec) :
    readRecord ks req pos rec = .ok none := by
  apply readRecord_of_opened_none
  rw [opened]
  exact if_pos h

end KivaDb.Log

namespace KivaDb.Write

open Lib.LittleEndian Lib.Utf8 Lib.Flags Format Crypt Log

variable [External] {w : Write} {keys : Option Keys} {nonce : Draw} {rec : Bytes}

theorem framed_encode {extra : UInt8} (h : w.encode keys nonce extra = .ok rec) : Framed rec := by
  obtain ⟨body, hb, rfl⟩ := encode_ok h
  exact framed_withCrc _ _ _ _ w.key.length_pos w.key.length_lt (w.stored_overhead_lt keys) hb

theorem sums_encode {extra : UInt8} (h : w.encode keys nonce extra = .ok rec) : Sums rec := by
  obtain ⟨body, hb, rfl⟩ := encode_ok h
  exact sums_withCrc ..

theorem header_encode {extra : UInt8} (h : w.encode keys nonce extra = .ok rec) :
    parseHeader rec =
      { crc := (parseHeader rec).crc
        kSize := UInt16.ofNat (asBytes w.key.1).length
        vSize := UInt32.ofNat (w.stored.length + overhead keys)
        ty := w.tyCode
        flags := sealFlags keys (w.flags extra)
        timestamp := w.timestamp
        expiresAt := expiryToMs w.expiresAt } := by
  obtain ⟨body, hb, rfl⟩ := encode_ok h
  rw [parseHeader_withCrc]

/-- The size of the raw value is found again, packed or not. -/
theorem rawSize_stored (keys : Option Keys) (role : Role) (key : ValidKey) (raw : RawValue) (ty : Ty) (enc : DocEnc)
    (algo : Compression) (ts ex : Int64) :
    rawSize (sealFlags keys ((put key raw ty enc algo ts ex).flags role.extra)) (put key raw ty enc algo ts ex).stored =
      UInt32.ofNat raw.1.length := by
  have henc : hasFlag enc.flags flagCompMask = false := by
    cases enc <;> decide
  rw [rawSize, hasFlag_sealFlags (by decide)]
  simp only [flags, stored, hasFlag_or, extra_compMask, henc]
  obtain h | ⟨lib, body, hlib, -, -, h⟩ := Compress.pack_cases raw.1 algo
  · simp [h, hasFlag_zero]
  · have hf : hasFlag algo.flag flagCompMask = true := by
      cases algo with
      | none => simp [Compression.library] at hlib
      | lz4 => decide
      | zlib => decide
    rw [h]
    simp only [hf, Bool.or_false, true_and]
    rw [if_pos (by simp), u32At_le32_append]

/-- A write is read back as it was, its deadline taken through `expiryToMs`. -/
theorem readRecord_encode {ks : Option Keys} {req : Bool} {role : Role} (pos : Nat) (hc : CanOpen ks keys)
    (hq : req = true → keys.isSome) (h : w.encode keys nonce role.extra = .ok rec) :
    readRecord ks req pos rec = .ok (some ⟨pos, w.key.1, (w.entry keys role.extra pos).map Entry.reread⟩) := by
  have hh := header_encode h
  have hfl : (parseHeader rec).flags = sealFlags keys (w.flags role.extra) := by rw [hh]
  have ho : opened ks req pos rec = .ok (some (asBytes w.key.1, w.stored)) := by
    apply opened_ok pos (sums_encode h) (openRecord_encode (extra_encrypted role) hc h)
    intro hr
    obtain ⟨k, rfl⟩ := Option.isSome_iff_exists.mp (hq hr)
    rw [hfl, hasFlag_sealFlags_encrypted]
  simp only [readRecord, ho, bind, Except.bind, fromUtf8_asBytes, hfl,
    hasFlag_sealFlags (m := flagTombstone) (by decide)]
  cases w with
  | put key raw ty enc algo ts ex =>
      have ht : hasFlag ((put key raw ty enc algo ts ex).flags role.extra) flagTombstone = false :=
        (hasFlag_put foreign_tombstone role.extra raw.1 algo enc).trans (extra_tombstone role)
      have hr := rawSize_stored keys role key raw ty enc algo ts ex
      have hty : Ty.fromU8 (parseHeader rec).ty = some ty := by
        rw [hh]
        exact Ty.fromU8_code ty
      simp only [ht, hty, hr]
      rw [hh]
      rfl
  | delete key ts =>
      have ht : hasFlag ((delete key ts).flags role.extra) flagTombstone = true := by
        simp [flags, show hasFlag flagTombstone flagTombstone = true by decide]
      rw [if_pos ht]
      rfl

/-- The role of a record is what its flags say. -/
theorem role_flags {role : Role} (h : w.encode keys nonce role.extra = .ok rec) :
    hasFlag (parseHeader rec).flags flagTxn = hasFlag role.extra flagTxn ∧
      hasFlag (parseHeader rec).flags flagTxnCommit = hasFlag role.extra flagTxnCommit := by
  rw [header_encode h]
  constructor
  · rw [hasFlag_sealFlags (by decide), hasFlag_flags foreign_txn (by decide)]
  · rw [hasFlag_sealFlags (by decide), hasFlag_flags foreign_txnCommit (by decide)]

/-- In clear, stamping a member makes the record a commit record would be. -/
theorem stampCommit_encode (h : w.encode none nonce Role.member.extra = .ok rec) :
    w.encode none nonce Role.commit.extra = .ok (stampCommit rec) := by
  have hf : w.flags Role.member.extra ||| flagTxnCommit = w.flags Role.commit.extra := by
    cases w with
    | put key raw ty enc algo ts ex =>
        simp only [flags, Role.extra]
        rw [UInt8.or_assoc, UInt8.or_comm enc.flags, ← UInt8.or_assoc, UInt8.or_assoc (Compress.pack raw.1 algo).2]
    | delete key ts =>
        simp only [flags, Role.extra]
        rw [UInt8.or_assoc]
  rw [← Except.ok.inj h, Format.encodeRecord, stampCommit_withCrc, hf]
  rfl

theorem framed_stampCommit (h : w.encode keys nonce Role.member.extra = .ok rec) : Framed (stampCommit rec) := by
  obtain ⟨body, hb, rfl⟩ := encode_ok h
  rw [stampCommit_withCrc]
  exact framed_withCrc _ _ _ _ w.key.length_pos w.key.length_lt (w.stored_overhead_lt keys) hb

theorem length_stampCommit (h : w.encode keys nonce Role.member.extra = .ok rec) :
    (stampCommit rec).length = rec.length := by
  obtain ⟨body, hb, rfl⟩ := encode_ok h
  rw [stampCommit_withCrc]
  simp

/-- Encrypted, the commit record of a batch is not valid to the scan. -/
theorem readRecord_stampCommit_sealed {ks : Option Keys} {k : Keys} (req : Bool) (pos : Nat) (hc : CanOpen ks (some k))
    (h : w.encode (some k) nonce Role.member.extra = .ok rec) : readRecord ks req pos (stampCommit rec) = .ok none := by
  have ht : openRecord ks (stampCommit rec) = .error .tampered :=
    openRecord_stampCommit_sealed
      ((hasFlag_flags foreign_txnCommit (by decide) _ w).trans (by decide)) hc h
  obtain ⟨body, hb, rfl⟩ := encode_ok h
  rw [stampCommit_withCrc] at ht ⊢
  apply readRecord_of_opened_none
  apply opened_tampered req pos (sums_withCrc ..) _ ht
  rw [parseHeader_withCrc, hasFlag_or, hasFlag_sealFlags_encrypted]
  rfl

end KivaDb.Write
