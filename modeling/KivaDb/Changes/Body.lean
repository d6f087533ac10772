import KivaDb.Record

namespace KivaDb.Changes

open Lib.LittleEndian Lib.Utf8 Lib.Flags Crypt

def magic : Bytes := [0x4B, 0x43, 0x44, 0x43]

def version : UInt32 := 1

def headerLen : Nat := 24

def bodyFixed : Nat := 8 * 4 + 3 + 8 * 2 + 2

/-- A record longer than this is damage, not a change. -/
def maxRecord : Nat := 300 * 1024 * 1024

def kindMark : UInt8 := 0

def kindSet : UInt8 := 1

def kindDel : UInt8 := 2

def kindReset : UInt8 := 3

def fTxnEnd : UInt8 := 1

def fMsgpack : UInt8 := 2

def fValue : UInt8 := 4

def fCreated : UInt8 := 8

/-- Rebuilt from the data file: whether the key was created is not known. -/
def fRebuilt : UInt8 := 16

def fKdoc : UInt8 := 32

/-- A record of the journal. -/
structure Body where
  seq : Nat
  fileId : Nat
  dataEnd : Nat
  txn : Nat
  kind : UInt8
  flags : UInt8
  ty : UInt8
  timestamp : Int64
  expiresAt : Int64
  key : String
  value : Bytes
  deriving DecidableEq

namespace Body

/-- The fields of a record keep to the room it has for them. -/
structure Fits (b : Body) : Prop where
  seq : b.seq < 2 ^ 64
  fileId : b.fileId < 2 ^ 64
  dataEnd : b.dataEnd < 2 ^ 64
  txn : b.txn < 2 ^ 64
  key : (asBytes b.key).length ≤ Format.maxKeyLen
  value : b.value.length ≤ Format.maxValueLen

def isMark (b : Body) : Bool := b.kind = kindMark

end Body

def body (b : Body) : Bytes :=
  toLE 8 b.seq ++ (toLE 8 b.fileId ++ (toLE 8 b.dataEnd ++ (toLE 8 b.txn ++ ([b.kind, b.flags, b.ty] ++
    (leI64 b.timestamp ++ (leI64 b.expiresAt ++ (le16 (UInt16.ofNat (asBytes b.key).length) ++
      (asBytes b.key ++ b.value))))))))

/-- The bytes a sequence that starts so may have next, and its length. -/
def leadByte (b : UInt8) : Option (UInt8 × UInt8 × Nat) :=
  if 0xC2 ≤ b ∧ b ≤ 0xDF then some (0x80, 0xBF, 2)
  else if b = 0xE0 then some (0xA0, 0xBF, 3)
  else if b = 0xED then some (0x80, 0x9F, 3)
  else if 0xE1 ≤ b ∧ b ≤ 0xEF then some (0x80, 0xBF, 3)
  else if b = 0xF0 then some (0x90, 0xBF, 4)
  else if 0xF1 ≤ b ∧ b ≤ 0xF3 then some (0x80, 0xBF, 4)
  else if b = 0xF4 then some (0x80, 0x8F, 4)
  else none

/-- How many bytes at the start of `b` belong to one character, and whether they
are all of it. -/
def charLen : Bytes → Nat × Bool
  | [] => (0, true)
  | b :: rest =>
      if b < 0x80 then (1, true)
      else
        match leadByte b, rest with
        | some (lo, hi, n), c :: more =>
            if lo ≤ c ∧ c ≤ hi then
              let k := 2 + ((more.take (n - 2)).takeWhile fun d => 0x80 ≤ d && d ≤ 0xBF).length
              (k, k = n)
            else (1, false)
        | _, _ => (1, false)

def replaceInvalid : Nat → Bytes → List Char
  | 0, _ => []
  | _ + 1, [] => []
  | fuel + 1, b =>
      let (n, whole) := charLen b
      let cs := if whole then ((fromUtf8 (b.take n)).map String.toList).getD [] else ['\uFFFD']
      cs ++ replaceInvalid fuel (b.drop n)

def fromUtf8Lossy (b : Bytes) : String :=
  match fromUtf8 b with
  | some s => s
  | none => String.ofList (replaceInvalid b.length b)

def parseBody (b : Bytes) : Option Body :=
  if b.length < bodyFixed then none
  else
    let klen := (u16At b (bodyFixed - 2)).toNat
    if b.length < bodyFixed + klen then none
    else some
      { seq := (u64At b 0).toNat
        fileId := (u64At b 8).toNat
        dataEnd := (u64At b 16).toNat
        txn := (u64At b 24).toNat
        kind := u8At b 32
        flags := u8At b 33
        ty := u8At b 34
        timestamp := i64At b 35
        expiresAt := i64At b 43
        key := fromUtf8Lossy (slice b bodyFixed klen)
        value := b.drop (bodyFixed + klen) }

theorem length_body (b : Body) : (body b).length = bodyFixed + (asBytes b.key).length + b.value.length := by
  simp only [body, List.length_append, length_toLE, length_leI64, length_le16, List.length_cons, List.length_nil,
    bodyFixed]
  omega

theorem u64At_toLE {b p r : Bytes} {i n : Nat} (hn : n < 2 ^ 64) (hb : b = p ++ (toLE 8 n ++ r)) (hi : p.length = i) :
    (u64At b i).toNat = n := by
  have hle : toLE 8 n = le64 (UInt64.ofNat n) := by
    rw [le64, UInt64.toNat_ofNat', Nat.mod_eq_of_lt hn]
  rw [hle] at hb
  rw [u64At_of_append hb hi, UInt64.toNat_ofNat', Nat.mod_eq_of_lt hn]

/-- A record is read back as it was. -/
theorem parseBody_body {b : Body} (h : b.Fits) : parseBody (body b) = some b := by
  have hk : (asBytes b.key).length < 2 ^ 16 := lt_of_le_of_lt h.key (by decide)
  -- the parts of a record, each with what is left after it
  set kv := asBytes b.key ++ b.value with hkv
  set t7 := le16 (UInt16.ofNat (asBytes b.key).length) ++ kv with ht7
  set t6 := leI64 b.expiresAt ++ t7 with ht6
  set t5 := leI64 b.timestamp ++ t6 with ht5
  set t4 := [b.kind, b.flags, b.ty] ++ t5 with ht4
  set t3 := toLE 8 b.txn ++ t4 with ht3
  set t2 := toLE 8 b.dataEnd ++ t3 with ht2
  have hbody : body b = toLE 8 b.seq ++ (toLE 8 b.fileId ++ t2) := rfl
  have hseq : (u64At (body b) 0).toNat = b.seq := u64At_toLE (p := []) h.seq hbody rfl
  have hfile : (u64At (body b) 8).toNat = b.fileId := u64At_toLE h.fileId hbody (by simp)
  have hend : (u64At (body b) 16).toNat = b.dataEnd :=
    u64At_toLE (p := toLE 8 b.seq ++ toLE 8 b.fileId) (r := t3) h.dataEnd (by rw [hbody, List.append_assoc]) (by simp)
  have htxn : (u64At (body b) 24).toNat = b.txn :=
    u64At_toLE (p := toLE 8 b.seq ++ (toLE 8 b.fileId ++ toLE 8 b.dataEnd)) (r := t4) h.txn
      (by simp only [hbody, ht2, ht3, List.append_assoc]) (by simp)
  have hbyte (i : Nat) : u8At (body b) (32 + i) = u8At t4 i := by
    have hl : (toLE 8 b.seq ++ (toLE 8 b.fileId ++ (toLE 8 b.dataEnd ++ toLE 8 b.txn))).length = 32 := by simp
    have hr := u8At_append_right (toLE 8 b.seq ++ (toLE 8 b.fileId ++ (toLE 8 b.dataEnd ++ toLE 8 b.txn))) t4 i
    rw [hl] at hr
    simpa only [hbody, ht2, ht3, List.append_assoc] using hr
  have hkind : u8At (body b) 32 = b.kind := hbyte 0
  have hflags : u8At (body b) 33 = b.flags := hbyte 1
  have hty : u8At (body b) 34 = b.ty := hbyte 2
  set p4 := toLE 8 b.seq ++ (toLE 8 b.fileId ++ (toLE 8 b.dataEnd ++ (toLE 8 b.txn ++ [b.kind, b.flags, b.ty]))) with hp4
  have hp4len : p4.length = 35 := by simp [hp4]
  have hbody4 : body b = p4 ++ t5 := by
    simp only [hbody, ht2, ht3, ht4, hp4, List.append_assoc]
  have hts : i64At (body b) 35 = b.timestamp := i64At_of_append (r := t6) hbody4 hp4len
  have hex : i64At (body b) 43 = b.expiresAt :=
    i64At_of_append (p := p4 ++ leI64 b.timestamp) (r := t7) (by simp only [hbody4, ht5, ht6, List.append_assoc])
      (by simp [hp4len])
  have hklen : (u16At (body b) (bodyFixed - 2)).toNat = (asBytes b.key).length := by
    have hu : u16At (body b) (bodyFixed - 2) = UInt16.ofNat (asBytes b.key).length :=
      u16At_of_append (p := p4 ++ (leI64 b.timestamp ++ leI64 b.expiresAt)) (r := kv)
        (by simp only [hbody4, ht5, ht6, ht7, List.append_assoc]) (by simp [hp4len, bodyFixed])
    rw [hu, UInt16.toNat_ofNat', Nat.mod_eq_of_lt hk]
  set p7 := p4 ++ (leI64 b.timestamp ++ (leI64 b.expiresAt ++ le16 (UInt16.ofNat (asBytes b.key).length))) with hp7
  have hbody7 : body b = p7 ++ (asBytes b.key ++ b.value) := by
    simp only [hbody4, ht5, ht6, ht7, hkv, hp7, List.append_assoc]
  have hp7len : p7.length = bodyFixed := by simp [hp7, hp4len, bodyFixed]
  have hkey : slice (body b) bodyFixed (asBytes b.key).length = asBytes b.key :=
    slice_eq_of_append hbody7 hp7len rfl
  have hvalue : (body b).drop (bodyFixed + (asBytes b.key).length) = b.value := by
    rw [hbody7, ← hp7len, ← List.append_assoc, List.drop_left' (by simp)]
  have hlossy : fromUtf8Lossy (asBytes b.key) = b.key := by
    rw [fromUtf8Lossy, fromUtf8_asBytes]
  have hlen := length_body b
  rw [parseBody, if_neg (by omega)]
  simp only [hklen]
  rw [if_neg (by omega), hseq, hfile, hend, htxn, hkind, hflags, hty, hts, hex, hkey, hvalue, hlossy]

variable [External]

/-- The body of the record at `pos`, and where the next one starts; `none` when
it is cut or its checksum does not match. -/
def frame (data : Bytes) (pos : Nat) : Option (Bytes × Nat) :=
  if data.length - pos < 8 then none
  else
    let len := (u32At data pos).toNat
    let stop := pos + 8 + len
    if maxRecord < len ∨ data.length < stop then none
    else
      let body := slice data (pos + 8) len
      if External.crc32 body = u32At data (pos + 4) then some (body, stop) else none

def openBody (keys : Option Keys) (id : UInt64) (sealed : Bytes) : Result Bytes :=
  match keys with
  | some k =>
      match openWith (some k) .changes (le64 id) sealed with
      | .ok b => .ok b
      | .error e => .error (e.intoError "a change")
  | none => .ok sealed

/-- The record of a body, encrypted when there is a key. -/
def pushRecord (keys : Option Keys) (id : UInt64) (nonce : Draw) (b : Bytes) : Result Bytes := do
  let sealed ← match keys with
    | some k => k.seal .changes (le64 id) nonce b
    | none => .ok b
  .ok (le32 (UInt32.ofNat sealed.length) ++ (le32 (External.crc32 sealed) ++ sealed))

/-- The records of `data` from `pos` on, each with where it starts and where the
next one does, up to the first that is cut or damaged; and why the last could
not be opened. -/
def records (keys : Option Keys) (id : UInt64) (data : Bytes) :
    Nat → Nat → List (Nat × Body × Nat) × Option KivaError
  | 0, _ => ([], none)
  | fuel + 1, pos =>
      if pos < data.length then
        match frame data pos with
        | none => ([], none)
        | some (sealed, stop) =>
            match openBody keys id sealed with
            | .error e => ([], some e)
            | .ok b =>
                match parseBody b with
                | none => ([], none)
                | some r =>
                    let rest := records keys id data fuel stop
                    ((pos, r, stop) :: rest.1, rest.2)
      else ([], none)

/-- `rec` is the record of `b` in the journal `id`. -/
def Journaled (keys : Option Keys) (id : UInt64) (b : Body) (rec : Bytes) : Prop :=
  b.Fits ∧ ∃ nonce, pushRecord keys id nonce (body b) = .ok rec

variable {keys : Option Keys} {id : UInt64} {b : Body} {rec : Bytes}

theorem Journaled.shape (h : Journaled keys id b rec) :
    ∃ sealed, openBody keys id sealed = .ok (body b) ∧ sealed.length ≤ maxRecord ∧
      rec = le32 (UInt32.ofNat sealed.length) ++ (le32 (External.crc32 sealed) ++ sealed) := by
  obtain ⟨hf, nonce, hp⟩ := h
  have hlen : (body b).length ≤ bodyFixed + Format.maxKeyLen + Format.maxValueLen := by
    have hk := hf.key
    have hv := hf.value
    rw [length_body]
    omega
  have hmax : bodyFixed + Format.maxKeyLen + Format.maxValueLen + trailer ≤ maxRecord := by decide
  cases keys with
  | none => exact ⟨body b, rfl, by omega, (Except.ok.inj hp).symm⟩
  | some k =>
      cases hs : k.seal .changes (le64 id) nonce (body b) with
      | error e => simp [pushRecord, hs, bind, Except.bind] at hp
      | ok sealed =>
          simp only [pushRecord, hs, bind, Except.bind, Except.ok.injEq] at hp
          refine ⟨sealed, ?_, ?_, hp.symm⟩
          · rw [openBody]
            simp only [openWith_seal (find_current k) hs]
          · rw [length_seal hs]
            omega

theorem Journaled.length_pos (h : Journaled keys id b rec) : 8 ≤ rec.length := by
  obtain ⟨sealed, -, -, rfl⟩ := h.shape
  simp only [List.length_append, length_le32]
  omega

/-- A record is found where it stands, whatever comes before and after. -/
theorem Journaled.frame_eq (h : Journaled keys id b rec) (pre post : Bytes) :
    ∃ sealed, frame (pre ++ (rec ++ post)) pre.length = some (sealed, pre.length + rec.length) ∧
      openBody keys id sealed = .ok (body b) := by
  obtain ⟨sealed, ho, hl, rfl⟩ := h.shape
  refine ⟨sealed, ?_, ho⟩
  have hm : maxRecord < 2 ^ 32 := by decide
  have hu : (UInt32.ofNat sealed.length).toNat = sealed.length := by
    rw [UInt32.toNat_ofNat', Nat.mod_eq_of_lt (by omega)]
  set data := pre ++ (le32 (UInt32.ofNat sealed.length) ++ (le32 (External.crc32 sealed) ++ sealed) ++ post) with hd
  have hlen : data.length = pre.length + 8 + sealed.length + post.length := by
    simp only [hd, List.length_append, length_le32]
    omega
  have h0 : u32At data pre.length = UInt32.ofNat sealed.length :=
    u32At_of_append (r := le32 (External.crc32 sealed) ++ (sealed ++ post)) (by simp only [hd, List.append_assoc]) rfl
  have h4 : u32At data (pre.length + 4) = External.crc32 sealed :=
    u32At_of_append (p := pre ++ le32 (UInt32.ofNat sealed.length)) (r := sealed ++ post)
      (by simp only [hd, List.append_assoc]) (by simp)
  have h8 : slice data (pre.length + 8) sealed.length = sealed :=
    slice_eq_of_append (p := pre ++ (le32 (UInt32.ofNat sealed.length) ++ le32 (External.crc32 sealed))) (r := post)
      (by simp only [hd, List.append_assoc]) (by simp) rfl
  rw [frame, if_neg (by omega)]
  simp only [h0, hu, h4, h8]
  rw [if_neg (by omega), if_pos trivial]
  simp only [List.length_append, length_le32, Option.some.injEq, Prod.mk.injEq, true_and]
  omega

/-- Records one after the other, with where each starts and ends. -/
def placed : Nat → List (Body × Bytes) → List (Nat × Body × Nat)
  | _, [] => []
  | pos, (b, rec) :: rs => (pos, b, pos + rec.length) :: placed (pos + rec.length) rs

/-- The reading loop finds the records of a whole journal file, from any record
on. -/
theorem records_journaled {rs : List (Body × Bytes)} (h : ∀ p ∈ rs, Journaled keys id p.1 p.2) (pre : Bytes)
    {fuel : Nat} (hfuel : rs.length ≤ fuel) :
    records keys id (pre ++ rs.flatMap Prod.snd) fuel pre.length = (placed pre.length rs, none) := by
  induction rs generalizing pre fuel with
  | nil =>
      cases fuel with
      | zero => rfl
      | succ n => simp [records, placed]
  | cons p rs ih =>
      obtain ⟨b, rec⟩ := p
      have hj : Journaled keys id b rec := h (b, rec) List.mem_cons_self
      have hpos := hj.length_pos
      cases fuel with
      | zero => simp at hfuel
      | succ n =>
          obtain ⟨sealed, hframe, hopen⟩ := hj.frame_eq pre (rs.flatMap Prod.snd)
          have hlt : pre.length < (pre ++ (rec ++ rs.flatMap Prod.snd)).length := by
            simp only [List.length_append]
            omega
          have hrest := ih (fun q hq => h q (List.mem_cons_of_mem _ hq)) (pre ++ rec)
            (Nat.le_of_succ_le_succ hfuel)
          rw [List.length_append, List.append_assoc] at hrest
          rw [List.flatMap_cons, records, if_pos hlt]
          simp only [hframe, hopen, parseBody_body hj.1, hrest, placed]

end KivaDb.Changes
