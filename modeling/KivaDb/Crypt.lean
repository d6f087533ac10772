import KivaDb.Format
import KivaDb.Lib.Flags

namespace KivaDb.Crypt

open Lib.LittleEndian Lib.Utf8 Lib.Flags Format

variable [External]

def tagLen : Nat := 16

def nonceLen : Nat := 12

/-- Bytes an encryption adds: tag, nonce and key id. -/
def trailer : Nat := 16 + nonceLen + 4

/-- What is being encrypted, mixed into the authenticated data so that a piece
of one kind can never be passed off as another. -/
inductive Domain
  | record
  | hint
  | graphs
  | changes
  deriving DecidableEq, Repr

def Domain.label : Domain → Bytes
  | record => asBytes "kivadb record v1"
  | hint => asBytes "kivadb hint v1"
  | graphs => asBytes "kivadb graphs v1"
  | changes => asBytes "kivadb changes v1"

structure Nonce where
  bytes : Bytes
  length_bytes : bytes.length = nonceLen

/-- What the system generator answers when asked for a nonce. -/
abbrev Draw := Except String Nonce

/-- One master key, ready to use. -/
structure Key where
  id : Bytes
  length_id : id.length = 4
  aead : External.aead.Key

/-- The one key that encrypts, and older ones that may still be needed to read
data written before a rotation. -/
structure Keys where
  current : Key
  old : List Key

/-- Why something encrypted could not be read. -/
inductive OpenError
  | noKey
  | unknownKey (id : Bytes)
  | tampered
  deriving DecidableEq, Repr

def hexDigit (n : Nat) : Char := "0123456789abcdef".toList.getD n '0'

def idHex (id : Bytes) : String :=
  String.ofList (id.flatMap fun b => [hexDigit (b.toNat / 16), hexDigit (b.toNat % 16)])

def OpenError.intoError (what : String) : OpenError → KivaError
  | noKey => .denied s!"{what} is encrypted: start KivaDB with its key in KIVADB_ENCRYPTION_KEY or encryption.key_file"
  | unknownKey id => .denied s!"{what} is encrypted with key {idHex id}, which this server does not have (current key: see 'encryption')"
  | tampered => .corrupted s!"{what} fails authentication: it was modified or damaged"

def randomFailed (why : String) : KivaError :=
  .other s!"ERR_RANDOM_UNAVAILABLE: the operating system's random generator failed ({why}); nothing was done"

def Keys.find (keys : Keys) (id : Bytes) : Option Key := (keys.current :: keys.old).find? (·.id = id)

def aad (domain : Domain) (extra id : Bytes) : Bytes := domain.label ++ (extra ++ id)

/-- Encrypts `data` with the current key and appends the trailer. -/
def Keys.seal (keys : Keys) (domain : Domain) (extra : Bytes) (nonce : Draw) (data : Bytes) : Result Bytes :=
  match nonce with
  | .error why => .error (randomFailed why)
  | .ok n =>
      let key := keys.current
      let (c, tag) := External.aead.sealInPlace key.aead n.bytes (aad domain extra key.id) data
      .ok (c ++ (tag ++ (n.bytes ++ key.id)))

/-- Decrypts what `Keys.seal` produced. -/
def openWith (keys : Option Keys) (domain : Domain) (extra sealed : Bytes) : Except OpenError Bytes :=
  if sealed.length < trailer then .error .tampered
  else
    match keys with
    | none => .error .noKey
    | some keys =>
        let n := sealed.length - trailer
        let id := sealed.drop (n + tagLen + nonceLen)
        match keys.find id with
        | none => .error (.unknownKey id)
        | some key =>
            let nonce := slice sealed (n + tagLen) nonceLen
            let tag := slice sealed n tagLen
            match External.aead.openInPlace key.aead nonce (aad domain extra id) (sealed.take n) tag with
            | none => .error .tampered
            | some data => .ok data

/-- Encodes a record, encrypted when `keys` is given. -/
def encodeRecord (keys : Option Keys) (nonce : Draw) (key : String) (value : Bytes) (ty flags : UInt8)
    (timestamp expiresAt : Int64) : Result Bytes :=
  match keys with
  | none => .ok (Format.encodeRecord key value ty flags timestamp expiresAt)
  | some keys => do
      let k := asBytes key
      let head := recHead k.length (value.length + trailer) ty (flags ||| flagEncrypted) timestamp expiresAt
      let body ← keys.seal .record head nonce (k ++ value)
      .ok (withCrc (head ++ body))

/-- The key and stored value of a whole record whose checksum was verified,
decrypting it when it is encrypted. -/
def openRecord (keys : Option Keys) (rec : Bytes) : Except OpenError (Bytes × Bytes) :=
  let h := parseHeader rec
  let k := h.kSize.toNat
  if ¬ hasFlag h.flags flagEncrypted then .ok (slice rec recHeaderLen k, rec.drop (recHeaderLen + k))
  else
    match openWith keys .record (slice rec 4 24) (rec.drop recHeaderLen) with
    | .error e => .error e
    | .ok plain => if plain.length < k then .error .tampered else .ok (plain.take k, plain.drop k)

/-- The bytes encryption adds to a stored value. -/
def overhead (keys : Option Keys) : Nat := if keys.isSome then trailer else 0

/-- The flags a record ends up with. -/
def sealFlags (keys : Option Keys) (flags : UInt8) : UInt8 :=
  if keys.isSome then flags ||| flagEncrypted else flags

theorem find_current (keys : Keys) : keys.find keys.current.id = some keys.current := by
  simp [Keys.find]

/-- The trailer is found at the end of whatever was sealed, and names the key. -/
theorem openWith_trailer {keys : Keys} {key : Key} (hf : keys.find key.id = some key) (domain : Domain)
    (extra c : Bytes) {tag nonce : Bytes} (ht : tag.length = tagLen) (hn : nonce.length = nonceLen) :
    openWith (some keys) domain extra (c ++ (tag ++ (nonce ++ key.id))) =
      match External.aead.openInPlace key.aead nonce (aad domain extra key.id) c tag with
      | none => .error .tampered
      | some data => .ok data := by
  have hi := key.length_id
  set s := c ++ (tag ++ (nonce ++ key.id)) with hs
  have hl : s.length = c.length + trailer := by
    simp only [hs, List.length_append, ht, hn, hi, trailer, tagLen]
    omega
  have hsub : s.length - trailer = c.length := by omega
  have hid : s.drop (c.length + tagLen + nonceLen) = key.id := by
    have hp : (c ++ (tag ++ nonce)).length = c.length + tagLen + nonceLen := by
      simp only [List.length_append, ht, hn]
      omega
    rw [hs, ← List.append_assoc tag, ← List.append_assoc c, List.drop_left' hp]
  have hnonce : slice s (c.length + tagLen) nonceLen = nonce :=
    slice_eq_of_append (p := c ++ tag) (List.append_assoc ..).symm (by simp [ht]) hn
  have htag : slice s c.length tagLen = tag := slice_eq_of_append rfl rfl ht
  have hc : s.take c.length = c := List.take_left' rfl
  rw [openWith, if_neg (by omega)]
  simp only [hsub, hid, hnonce, htag, hc, hf]

theorem seal_ok {keys : Keys} {domain : Domain} {extra data s : Bytes} {nonce : Draw}
    (h : keys.seal domain extra nonce data = .ok s) :
    ∃ n : Nonce, nonce = .ok n ∧
      s = (External.aead.sealInPlace keys.current.aead n.bytes (aad domain extra keys.current.id) data).1 ++
        ((External.aead.sealInPlace keys.current.aead n.bytes (aad domain extra keys.current.id) data).2 ++
          (n.bytes ++ keys.current.id)) := by
  cases nonce with
  | error why => simp [Keys.seal] at h
  | ok n => exact ⟨n, rfl, (Except.ok.inj h).symm⟩

theorem length_seal {keys : Keys} {domain : Domain} {extra data s : Bytes} {nonce : Draw}
    (h : keys.seal domain extra nonce data = .ok s) : s.length = data.length + trailer := by
  obtain ⟨n, -, rfl⟩ := seal_ok h
  simp only [List.length_append, External.Aead.length_data, External.Aead.length_tag, n.length_bytes,
    keys.current.length_id, trailer]
  omega

theorem openWith_seal {keys ks : Keys} {domain : Domain} {extra data s : Bytes} {nonce : Draw}
    (hf : ks.find keys.current.id = some keys.current) (h : keys.seal domain extra nonce data = .ok s) :
    openWith (some ks) domain extra s = .ok data := by
  obtain ⟨n, -, rfl⟩ := seal_ok h
  rw [openWith_trailer hf domain extra _ (External.Aead.length_tag ..) n.length_bytes, External.Aead.open_seal]

omit [External] in
theorem aad_set (domain : Domain) {extra : Bytes} (id : Bytes) {i : Nat} (hi : i < extra.length) (x : UInt8) :
    aad domain (extra.set i x) id = (aad domain extra id).set (domain.label.length + i) x := by
  rw [aad, aad, List.set_append_right _ _ (by omega), Nat.add_sub_cancel_left, List.set_append_left _ _ hi]

/-- A byte of what was authenticated beside the text is another: it no longer
opens. -/
theorem openWith_altered {keys ks : Keys} {domain : Domain} {extra data s : Bytes} {nonce : Draw} {i : Nat}
    {x : UInt8} (hf : ks.find keys.current.id = some keys.current)
    (h : keys.seal domain extra nonce data = .ok s) (hi : i < extra.length) (hx : u8At extra i ≠ x) :
    openWith (some ks) domain (extra.set i x) s = .error .tampered := by
  obtain ⟨n, -, rfl⟩ := seal_ok h
  have hb : (aad domain extra keys.current.id).getD (domain.label.length + i) 0 ≠ x := by
    intro he
    apply hx
    rw [← he, ← u8At_append_left keys.current.id hi, ← u8At_append_right domain.label]
    rfl
  rw [openWith_trailer hf domain _ _ (External.Aead.length_tag ..) n.length_bytes, aad_set domain _ hi,
    External.Aead.open_altered _ _ _ _ _ _ _ (by simp [aad]; omega) hb]

/-- The keys `ks` can read what `keys` writes: nothing is needed for what is
written in clear, and else the sealing key under its own id. -/
def CanOpen (ks keys : Option Keys) : Prop :=
  ∀ k, keys = some k → ∃ o, ks = some o ∧ o.find k.current.id = some k.current

theorem canOpen_self (keys : Option Keys) : CanOpen keys keys :=
  fun k h => ⟨k, h, find_current k⟩

/-- Whether a record can be encoded is a matter of the generator alone. -/
theorem encodeRecord_again {keys : Option Keys} {nonce : Draw} {key : String} {value rec : Bytes} {ty flags : UInt8}
    {ts ex : Int64} (h : encodeRecord keys nonce key value ty flags ts ex = .ok rec) (key' : String) (value' : Bytes)
    (ty' flags' : UInt8) (ts' ex' : Int64) :
    ∃ rec', encodeRecord keys nonce key' value' ty' flags' ts' ex' = .ok rec' := by
  cases keys with
  | none => exact ⟨_, rfl⟩
  | some ks =>
      cases nonce with
      | error why => simp [encodeRecord, Keys.seal, bind, Except.bind] at h
      | ok n => exact ⟨_, rfl⟩

/-- The shape of an encoded record. -/
theorem encodeRecord_ok {keys : Option Keys} {nonce : Draw} {key : String} {value rec : Bytes}
    {ty flags : UInt8} {ts ex : Int64} (h : encodeRecord keys nonce key value ty flags ts ex = .ok rec) :
    ∃ body, body.length = (asBytes key).length + (value.length + overhead keys) ∧
      rec = withCrc (recHead (asBytes key).length (value.length + overhead keys) ty (sealFlags keys flags) ts ex ++
        body) := by
  cases keys with
  | none => exact ⟨asBytes key ++ value, by simp [overhead], (Except.ok.inj h).symm⟩
  | some ks =>
      cases hs : ks.seal .record (recHead (asBytes key).length (value.length + trailer) ty
          (flags ||| flagEncrypted) ts ex) nonce (asBytes key ++ value) with
      | error e => simp [encodeRecord, hs, bind, Except.bind] at h
      | ok body =>
          simp only [encodeRecord, hs, bind, Except.bind, Except.ok.injEq] at h
          refine ⟨body, ?_, h.symm⟩
          rw [length_seal hs, List.length_append]
          simp only [overhead, Option.isSome_some, if_true]
          omega

theorem slice_withCrc_head (kLen vLen : Nat) (ty flags : UInt8) (ts ex : Int64) (body : Bytes) :
    slice (withCrc (recHead kLen vLen ty flags ts ex ++ body)) 4 24 = recHead kLen vLen ty flags ts ex :=
  slice_eq_of_append rfl (length_le32 _) (length_recHead ..)

theorem drop_withCrc_head (kLen vLen : Nat) (ty flags : UInt8) (ts ex : Int64) (body : Bytes) :
    (withCrc (recHead kLen vLen ty flags ts ex ++ body)).drop recHeaderLen = body := by
  have h : recHeaderLen = 4 + 24 := rfl
  rw [h, ← List.drop_drop, drop_withCrc, List.drop_left' (length_recHead ..)]

theorem openRecord_clear (ks : Option Keys) {k : Bytes} (value : Bytes) (vLen : Nat) (ty : UInt8) {flags : UInt8}
    (ts ex : Int64) (hk : k.length < 2 ^ 16) (hf : hasFlag flags flagEncrypted = false) :
    openRecord ks (withCrc (recHead k.length vLen ty flags ts ex ++ (k ++ value))) = .ok (k, value) := by
  have hkn : (UInt16.ofNat k.length).toNat = k.length := by
    rw [UInt16.toNat_ofNat', Nat.mod_eq_of_lt hk]
  have hb := drop_withCrc_head k.length vLen ty flags ts ex (k ++ value)
  simp only [openRecord, parseHeader_withCrc, hf, hkn, ← List.drop_drop, slice, hb]
  simp

theorem openRecord_sealed (ks : Option Keys) (kLen vLen : Nat) (ty : UInt8) {flags : UInt8} (ts ex : Int64)
    (body : Bytes) (hf : hasFlag flags flagEncrypted = true) :
    openRecord ks (withCrc (recHead kLen vLen ty flags ts ex ++ body)) =
      match openWith ks .record (recHead kLen vLen ty flags ts ex) body with
      | .error e => .error e
      | .ok plain =>
          if plain.length < kLen % 2 ^ 16 then .error .tampered
          else .ok (plain.take (kLen % 2 ^ 16), plain.drop (kLen % 2 ^ 16)) := by
  simp only [openRecord, parseHeader_withCrc, hf, slice_withCrc_head, drop_withCrc_head]
  simp

section

variable {ks keys : Option Keys} {nonce : Draw} {key : String} {value rec : Bytes} {ty flags : UInt8} {ts ex : Int64}

/-- A record opens to the key and the value it was made of. -/
theorem openRecord_encodeRecord (hk : (asBytes key).length < 2 ^ 16) (hf : hasFlag flags flagEncrypted = false)
    (hc : CanOpen ks keys) (h : encodeRecord keys nonce key value ty flags ts ex = .ok rec) :
    openRecord ks rec = .ok (asBytes key, value) := by
  cases keys with
  | none =>
      rw [← Except.ok.inj h]
      exact openRecord_clear ks value _ ty ts ex hk hf
  | some w =>
      obtain ⟨o, rfl, ho⟩ := hc w rfl
      cases hs : w.seal .record (recHead (asBytes key).length (value.length + trailer) ty
          (flags ||| flagEncrypted) ts ex) nonce (asBytes key ++ value) with
      | error e => simp [encodeRecord, hs, bind, Except.bind] at h
      | ok body =>
          simp only [encodeRecord, hs, bind, Except.bind, Except.ok.injEq] at h
          have he : hasFlag (flags ||| flagEncrypted) flagEncrypted = true := by
            rw [hasFlag_or, hf]
            decide
          rw [← h, openRecord_sealed _ _ _ ty ts ex body he, openWith_seal ho hs, Nat.mod_eq_of_lt hk]
          simp

/-- In clear, a record still opens once it is stamped as a commit point. -/
theorem openRecord_stampCommit_clear (ks : Option Keys) (hk : (asBytes key).length < 2 ^ 16)
    (hf : hasFlag flags flagEncrypted = false) (h : encodeRecord none nonce key value ty flags ts ex = .ok rec) :
    openRecord ks (stampCommit rec) = .ok (asBytes key, value) := by
  have hc : hasFlag (flags ||| flagTxnCommit) flagEncrypted = false := by
    rw [hasFlag_or, hf]
    decide
  rw [← Except.ok.inj h, Format.encodeRecord, stampCommit_withCrc]
  exact openRecord_clear ks value _ ty ts ex hk hc

/-- Encrypted, it no longer opens: the flags it was sealed with are not the
flags it now has. -/
theorem openRecord_stampCommit_sealed {w : Keys} (hf : hasFlag flags flagTxnCommit = false)
    (hc : CanOpen ks (some w))
    (h : encodeRecord (some w) nonce key value ty flags ts ex = .ok rec) :
    openRecord ks (stampCommit rec) = .error .tampered := by
  obtain ⟨o, rfl, ho⟩ := hc w rfl
  cases hs : w.seal .record (recHead (asBytes key).length (value.length + trailer) ty
      (flags ||| flagEncrypted) ts ex) nonce (asBytes key ++ value) with
  | error e => simp [encodeRecord, hs, bind, Except.bind] at h
  | ok body =>
      simp only [encodeRecord, hs, bind, Except.bind, Except.ok.injEq] at h
      set head := recHead (asBytes key).length (value.length + trailer) ty (flags ||| flagEncrypted) ts ex with hhead
      have he : hasFlag (flags ||| flagEncrypted ||| flagTxnCommit) flagEncrypted = true := by
        simp only [hasFlag_or]
        rw [show hasFlag flagEncrypted flagEncrypted = true by decide]
        simp
      have hset : recHead (asBytes key).length (value.length + trailer) ty
          (flags ||| flagEncrypted ||| flagTxnCommit) ts ex = head.set 7 (flags ||| flagEncrypted ||| flagTxnCommit) := by
        rw [hhead, recHead_set_flags]
      have hx : u8At head 7 ≠ flags ||| flagEncrypted ||| flagTxnCommit := by
        have h7 : u8At head 7 = flags ||| flagEncrypted := by
          have hp := parseHeader_withCrc (asBytes key).length (value.length + trailer) ty (flags ||| flagEncrypted)
            ts ex body
          have hb := u8At_append_right (le32 (External.crc32 (head ++ body))) (head ++ body) 7
          rw [length_le32, u8At_append_left body (by simp [hhead])] at hb
          rw [← hb]
          exact congrArg RecHeader.flags hp
        rw [h7]
        apply or_ne_self (by decide)
        rw [hasFlag_or, hf]
        decide
      rw [← h, hhead, stampCommit_withCrc, openRecord_sealed _ _ _ ty ts ex body he, hset,
        openWith_altered ho hs (by simp [hhead]) hx]

end

end KivaDb.Crypt
