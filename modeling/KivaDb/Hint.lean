import KivaDb.Log
import KivaDb.Lib.Fallible

namespace KivaDb.Hint

open Lib.LittleEndian Lib.Utf8 Lib.Fallible Format Crypt

variable [External]

def hintMagic : Bytes := [0x4B, 0x48, 0x4E, 0x54]

def hintVersion : UInt32 := 1

def hintHeaderLen : Nat := 44

structure HintData where
  fileId : UInt64
  dataLen : Nat
  compression : Compression
  /-- Whether the snapshot was written encrypted. -/
  encrypted : Bool
  entries : List (String × Entry)

/-- What is kept of an entry beside its key. -/
def entryTail (e : Entry) : Bytes :=
  le64 (UInt64.ofNat e.offset) ++ (le32 e.vSize ++ (le32 e.rawSize ++ ([e.ty.code, e.flags] ++
    (leI64 e.timestamp ++ leI64 e.expiresAt))))

def entryHead (key : String) (e : Entry) : Bytes :=
  le16 (UInt16.ofNat (asBytes key).length) ++ (asBytes key ++ entryTail e)

def entryBytes (p : String × Entry) : Bytes := entryHead p.1 p.2 ++ le32 (External.crc32 (entryHead p.1 p.2))

def hintBody (index : Index) : Bytes := index.toList.flatMap entryBytes

/-- The header of a hint up to its own checksum. -/
def hintHead (fileId : UInt64) (dataLen count : Nat) (flag : UInt8) (encrypted : Bool) (stored : Bytes) : Bytes :=
  hintMagic ++ (le32 hintVersion ++ (le64 fileId ++ (le64 (UInt64.ofNat dataLen) ++ (le64 (UInt64.ofNat count) ++
    ([flag, if encrypted then 1 else 0, 0, 0] ++ le32 (External.crc32 stored))))))

/-- The body as it is stored: sealed when the engine has keys. -/
def sealBody (keys : Option Keys) (fileId : UInt64) (nonce : Draw) (packed : Bytes) : Result Bytes :=
  match keys with
  | none => .ok packed
  | some keys => keys.seal .hint (le64 fileId) nonce packed

/-- The snapshot of an index, as the hint file holds it. -/
def writeHint (fileId : UInt64) (dataLen : Nat) (index : Index) (compression : Compression) (keys : Option Keys)
    (nonce : Draw) : Result Bytes := do
  let packed := Compress.pack (hintBody index) compression
  let stored ← sealBody keys fileId nonce packed.1
  let head := hintHead fileId dataLen index.size packed.2 keys.isSome stored
  .ok (head ++ (le32 (External.crc32 head) ++ stored))

def bad (msg : String) : KivaError := .corrupted s!"hint file: {msg}"

/-- The first entry of `body` and what comes after it. -/
def readEntry (dataLen : Nat) (body : Bytes) : Result ((String × Entry) × Bytes) :=
  if body.length < 2 then .error (bad "truncated entry")
  else
    let k := (u16At body 0).toNat
    if body.length - 2 < k + 38 then .error (bad "truncated entry")
    else
      match fromUtf8 (slice body 2 k) with
      | none => .error (bad "key is not UTF-8")
      | some key =>
          let p := 2 + k
          let offset := (u64At body p).toNat
          let vSize := u32At body (p + 8)
          match Ty.fromU8 (u8At body (p + 16)) with
          | none => .error (bad "unknown type tag")
          | some ty =>
              if u32At body (p + 34) ≠ External.crc32 (body.take (p + 34)) then
                .error (bad "entry checksum mismatch")
              else if k = 0 ∨ dataLen < min (offset + (28 + k + vSize.toNat)) (2 ^ 64 - 1) then
                .error (bad "entry points outside the data file")
              else
                .ok ((key,
                  { offset := offset
                    kSize := UInt16.ofNat k
                    vSize := vSize
                    rawSize := u32At body (p + 12)
                    ty := ty
                    flags := u8At body (p + 17)
                    timestamp := i64At body (p + 18)
                    expiresAt := expiryToMs (i64At body (p + 26))
                    version := 0 }), body.drop (p + 38))

def readEntries (dataLen : Nat) : Nat → Bytes → Result (List (String × Entry))
  | 0, _ => .ok []
  | fuel + 1, body =>
      if body = [] then .ok []
      else do
        let (p, rest) ← readEntry dataLen body
        let ps ← readEntries dataLen fuel rest
        .ok (p :: ps)

/-- The body as it was packed: opened when it was sealed. -/
def openBody (keys : Option Keys) (fileId : UInt64) (encrypted : Bool) (stored : Bytes) : Result Bytes :=
  if encrypted then
    match openWith keys .hint (le64 fileId) stored with
    | .ok packed => .ok packed
    | .error e => .error (e.intoError "the hint file")
  else .ok stored

/-- The entries of a hint whose header says the rest. -/
def readBody (keys : Option Keys) (fileId : UInt64) (dataLen count : Nat) (compression : Compression)
    (encrypted : Bool) (stored : Bytes) : Result HintData := do
  let packed ← openBody keys fileId encrypted stored
  match Compress.unpack packed compression with
  | .error _ => .error (bad "body cannot be decompressed")
  | .ok body =>
      let entries ← readEntries dataLen body.length body
      if entries.length ≠ count then .error (bad "entry count mismatch")
      else .ok { fileId, dataLen, compression, encrypted, entries }

def readHint (data : Bytes) (keys : Option Keys) : Result HintData :=
  if data.length < hintHeaderLen ∨ data.take 4 ≠ hintMagic then .error (bad "missing signature")
  else if u32At data 40 ≠ External.crc32 (data.take 40) then .error (bad "header checksum mismatch")
  else if u32At data 4 ≠ hintVersion then .error (bad "unsupported version")
  else
    let stored := data.drop hintHeaderLen
    if u32At data 36 ≠ External.crc32 stored then .error (bad "body checksum mismatch")
    else
      readBody keys (u64At data 8) (u64At data 16).toNat (u64At data 24).toNat (Compression.fromFlag (u8At data 32))
        (u8At data 33 = 1) stored

/-- What a hint can say of an entry: a key of a size a header can hold, and a
record inside the file. -/
structure Fits (dataLen : Nat) (p : String × Entry) : Prop where
  key_pos : 0 < (asBytes p.1).length
  key_lt : (asBytes p.1).length < 2 ^ 16
  kSize : p.2.kSize = UInt16.ofNat (asBytes p.1).length
  inside : p.2.offset + p.2.recLen ≤ dataLen

omit [External] in
theorem length_entryTail (e : Entry) : (entryTail e).length = 34 := by
  simp [entryTail]

omit [External] in
theorem length_entryHead (key : String) (e : Entry) : (entryHead key e).length = 2 + (asBytes key).length + 34 := by
  simp only [entryHead, List.length_append, length_le16, length_entryTail]
  omega

theorem readEntry_entryBytes {dataLen : Nat} {p : String × Entry} (hd : dataLen < 2 ^ 64) (h : Fits dataLen p)
    (rest : Bytes) :
    readEntry dataLen (entryBytes p ++ rest) = .ok ((p.1, { p.2.reread with version := 0 }), rest) := by
  obtain ⟨key, e⟩ := p
  obtain ⟨h0, hk, hks, hin⟩ := h
  dsimp only at h0 hk hks hin
  set b := entryBytes (key, e) ++ rest with hb
  have hkn : (UInt16.ofNat (asBytes key).length).toNat = (asBytes key).length := by
    rw [UInt16.toNat_ofNat', Nat.mod_eq_of_lt hk]
  have hrl : e.recLen = 28 + (asBytes key).length + e.vSize.toNat := by
    rw [Entry.recLen, hks, hkn]
    rfl
  have hon : (UInt64.ofNat e.offset).toNat = e.offset := by
    rw [UInt64.toNat_ofNat', Nat.mod_eq_of_lt (by omega)]
  have hlen : b.length = 2 + (asBytes key).length + 34 + 4 + rest.length := by
    simp only [hb, entryBytes, List.length_append, length_entryHead, length_le32]
  have hbody : b = le16 (UInt16.ofNat (asBytes key).length) ++ (asBytes key ++ (le64 (UInt64.ofNat e.offset) ++
      (le32 e.vSize ++ (le32 e.rawSize ++ ([e.ty.code, e.flags] ++ (leI64 e.timestamp ++ (leI64 e.expiresAt ++
        (le32 (External.crc32 (entryHead key e)) ++ rest)))))))) := by
    simp only [hb, entryBytes, entryHead, entryTail, List.append_assoc]
  set n := (asBytes key).length with hn
  set k2 := le16 (UInt16.ofNat n) with hk2
  have hk2l : k2.length = 2 := length_le16 _
  -- the fields, each behind what stands before it
  have f0 : u16At b 0 = UInt16.ofNat n := u16At_of_append (p := []) hbody rfl
  have fkey : slice b 2 n = asBytes key := slice_eq_of_append hbody hk2l rfl
  have foff : u64At b (2 + n) = UInt64.ofNat e.offset :=
    u64At_of_append (p := k2 ++ asBytes key) (by simpa only [List.append_assoc] using hbody) (by simp [hk2l, hn])
  have fv : u32At b (2 + n + 8) = e.vSize :=
    u32At_of_append (p := k2 ++ (asBytes key ++ le64 (UInt64.ofNat e.offset)))
      (by simpa only [List.append_assoc] using hbody) (by simp [hk2l, hn]; omega)
  have fraw : u32At b (2 + n + 12) = e.rawSize :=
    u32At_of_append (p := k2 ++ (asBytes key ++ (le64 (UInt64.ofNat e.offset) ++ le32 e.vSize)))
      (by simpa only [List.append_assoc] using hbody) (by simp [hk2l, hn]; omega)
  have fty : u8At b (2 + n + 16) = e.ty.code :=
    u8At_of_append (p := k2 ++ (asBytes key ++ (le64 (UInt64.ofNat e.offset) ++ (le32 e.vSize ++ le32 e.rawSize))))
      (by simpa only [List.append_assoc, List.cons_append, List.nil_append] using hbody) (by simp [hk2l, hn]; omega)
  have ffl : u8At b (2 + n + 17) = e.flags :=
    u8At_of_append (p := k2 ++ (asBytes key ++ (le64 (UInt64.ofNat e.offset) ++ (le32 e.vSize ++ (le32 e.rawSize ++
      [e.ty.code])))))
      (by simpa only [List.append_assoc, List.cons_append, List.nil_append] using hbody) (by simp [hk2l, hn]; omega)
  have fts : i64At b (2 + n + 18) = e.timestamp :=
    i64At_of_append (p := k2 ++ (asBytes key ++ (le64 (UInt64.ofNat e.offset) ++ (le32 e.vSize ++ (le32 e.rawSize ++
      [e.ty.code, e.flags])))))
      (by simpa only [List.append_assoc, List.cons_append, List.nil_append] using hbody) (by simp [hk2l, hn]; omega)
  have fex : i64At b (2 + n + 26) = e.expiresAt :=
    i64At_of_append (p := k2 ++ (asBytes key ++ (le64 (UInt64.ofNat e.offset) ++ (le32 e.vSize ++ (le32 e.rawSize ++
      ([e.ty.code, e.flags] ++ leI64 e.timestamp))))))
      (by simpa only [List.append_assoc, List.cons_append, List.nil_append] using hbody) (by simp [hk2l, hn]; omega)
  have hhead : b = entryHead key e ++ (le32 (External.crc32 (entryHead key e)) ++ rest) := by
    simp only [hb, entryBytes, List.append_assoc]
  have hhl : (entryHead key e).length = 2 + n + 34 := length_entryHead key e
  have fcrc : u32At b (2 + n + 34) = External.crc32 (entryHead key e) := u32At_of_append hhead hhl
  have ftake : b.take (2 + n + 34) = entryHead key e := by rw [hhead, List.take_left' hhl]
  have fdrop : b.drop (2 + n + 38) = rest := by
    have hl : (entryHead key e ++ le32 (External.crc32 (entryHead key e))).length = 2 + n + 38 := by
      rw [List.length_append, hhl, length_le32]
    rw [hhead, ← List.append_assoc, List.drop_left' hl]
  have hsize : ¬ (n = 0 ∨ dataLen < min (e.offset + (28 + n + e.vSize.toNat)) (2 ^ 64 - 1)) := by
    omega
  rw [readEntry, if_neg (by omega)]
  simp only [f0, hkn]
  rw [if_neg (by omega)]
  simp only [fkey, fromUtf8_asBytes, foff, hon, fv, fty, Ty.fromU8_code, fcrc, ftake, ne_eq, not_true_eq_false,
    if_false, hsize, fraw, ffl, fts, fex, fdrop]
  simp only [Entry.reread, ← hks]

theorem readEntries_flatMap {dataLen : Nat} (hd : dataLen < 2 ^ 64) (ps : List (String × Entry))
    (h : ∀ p ∈ ps, Fits dataLen p) {fuel : Nat} (hf : (ps.flatMap entryBytes).length ≤ fuel) :
    readEntries dataLen fuel (ps.flatMap entryBytes) =
      .ok (ps.map fun p => (p.1, { p.2.reread with version := 0 })) := by
  induction ps generalizing fuel with
  | nil =>
      cases fuel with
      | zero => rfl
      | succ fuel => rfl
  | cons p ps ih =>
      have hl : 0 < (entryBytes p).length := by
        simp only [entryBytes, List.length_append, length_le32]
        omega
      rw [List.flatMap_cons, List.length_append] at hf
      obtain ⟨f, rfl⟩ : ∃ f, fuel = f + 1 := ⟨fuel - 1, by omega⟩
      have hne : ¬ entryBytes p ++ ps.flatMap entryBytes = [] := by
        intro hn
        have := congrArg List.length hn
        simp only [List.length_append, List.length_nil] at this
        omega
      rw [List.flatMap_cons, readEntries, if_neg hne, readEntry_entryBytes hd (h p List.mem_cons_self)]
      have hrest : (ps.flatMap entryBytes).length ≤ f := by omega
      simp only [bind, Except.bind, ih (fun q hq => h q (List.mem_cons_of_mem p hq)) hrest, List.map_cons]

theorem length_hintHead (fileId : UInt64) (dataLen count : Nat) (flag : UInt8) (encrypted : Bool) (stored : Bytes) :
    (hintHead fileId dataLen count flag encrypted stored).length = 40 := by
  simp [hintHead, hintMagic]

/-- A hint with its parts in place is read down to its entries. -/
theorem readHint_of_head {fileId : UInt64} {dataLen count : Nat} (flag : UInt8) (encrypted : Bool) (stored : Bytes)
    (ks : Option Keys) (hd : dataLen < 2 ^ 64) (hn : count < 2 ^ 64) :
    readHint (hintHead fileId dataLen count flag encrypted stored ++
      (le32 (External.crc32 (hintHead fileId dataLen count flag encrypted stored)) ++ stored)) ks =
      readBody ks fileId dataLen count (Compression.fromFlag flag) encrypted stored := by
  set head := hintHead fileId dataLen count flag encrypted stored with hhead
  set data := head ++ (le32 (External.crc32 head) ++ stored) with hdata
  have hhl : head.length = 40 := length_hintHead ..
  have hlen : data.length = 44 + stored.length := by
    simp only [hdata, List.length_append, hhl, length_le32]
    omega
  have hdn : (UInt64.ofNat dataLen).toNat = dataLen := by
    rw [UInt64.toNat_ofNat', Nat.mod_eq_of_lt hd]
  have hcn : (UInt64.ofNat count).toNat = count := by
    rw [UInt64.toNat_ofNat', Nat.mod_eq_of_lt hn]
  have hparts : data = hintMagic ++ (le32 hintVersion ++ (le64 fileId ++ (le64 (UInt64.ofNat dataLen) ++
      (le64 (UInt64.ofNat count) ++ ([flag, if encrypted then 1 else 0, 0, 0] ++ (le32 (External.crc32 stored) ++
        (le32 (External.crc32 head) ++ stored))))))) := by
    simp only [hdata, hhead, hintHead, List.append_assoc]
  have hm : hintMagic.length = 4 := rfl
  have f0 : data.take 4 = hintMagic := by rw [hparts, List.take_left' hm]
  have f4 : u32At data 4 = hintVersion := u32At_of_append hparts rfl
  have f8 : u64At data 8 = fileId :=
    u64At_of_append (p := hintMagic ++ le32 hintVersion) (by simpa only [List.append_assoc] using hparts) rfl
  have f16 : u64At data 16 = UInt64.ofNat dataLen :=
    u64At_of_append (p := hintMagic ++ (le32 hintVersion ++ le64 fileId))
      (by simpa only [List.append_assoc] using hparts) rfl
  have f24 : u64At data 24 = UInt64.ofNat count :=
    u64At_of_append (p := hintMagic ++ (le32 hintVersion ++ (le64 fileId ++ le64 (UInt64.ofNat dataLen))))
      (by simpa only [List.append_assoc] using hparts) rfl
  have f32 : u8At data 32 = flag :=
    u8At_of_append (p := hintMagic ++ (le32 hintVersion ++ (le64 fileId ++ (le64 (UInt64.ofNat dataLen) ++
      le64 (UInt64.ofNat count)))))
      (by simpa only [List.append_assoc, List.cons_append, List.nil_append] using hparts) rfl
  have f33 : u8At data 33 = if encrypted then 1 else 0 :=
    u8At_of_append (p := hintMagic ++ (le32 hintVersion ++ (le64 fileId ++ (le64 (UInt64.ofNat dataLen) ++
      (le64 (UInt64.ofNat count) ++ [flag])))))
      (by simpa only [List.append_assoc, List.cons_append, List.nil_append] using hparts) rfl
  have f36 : u32At data 36 = External.crc32 stored :=
    u32At_of_append (p := hintMagic ++ (le32 hintVersion ++ (le64 fileId ++ (le64 (UInt64.ofNat dataLen) ++
      (le64 (UInt64.ofNat count) ++ [flag, if encrypted then 1 else 0, 0, 0])))))
      (by simpa only [List.append_assoc, List.cons_append, List.nil_append] using hparts) rfl
  have f40 : u32At data 40 = External.crc32 head := u32At_of_append hdata hhl
  have ftake : data.take 40 = head := by rw [hdata, List.take_left' hhl]
  have fdrop : data.drop hintHeaderLen = stored := by
    have hl44 : (head ++ le32 (External.crc32 head)).length = hintHeaderLen := by
      rw [List.length_append, hhl, length_le32]
      rfl
    rw [hdata, ← List.append_assoc, List.drop_left' hl44]
  have hsig : ¬ (data.length < hintHeaderLen ∨ data.take 4 ≠ hintMagic) := by
    have h44 : hintHeaderLen = 44 := rfl
    simp only [f0, ne_eq, not_true_eq_false, or_false]
    omega
  rw [readHint, if_neg hsig]
  simp only [f4, f8, f16, f24, f32, f33, f36, f40, ftake, fdrop, hdn, hcn, ne_eq, not_true_eq_false, if_false]
  cases encrypted with
  | false => rfl
  | true => rfl

section

variable {fileId : UInt64} {dataLen : Nat} {index : Index} {algo : Compression} {keys ks : Option Keys} {nonce : Draw}
  {data : Bytes}

/-- What is read of a snapshot: the entries as a reader of the file sees them. -/
def reread (fileId : UInt64) (dataLen : Nat) (index : Index) (algo : Compression) (keys : Option Keys) : HintData :=
  { fileId, dataLen
    compression := Compression.fromFlag (Compress.pack (hintBody index) algo).2
    encrypted := keys.isSome
    entries := index.toList.map fun p => (p.1, { p.2.reread with version := 0 }) }

/-- A snapshot is read down to its body. -/
theorem readHint_writeHint_eq (hc : CanOpen ks keys) (hd : dataLen < 2 ^ 64) (hs : index.size < 2 ^ 64)
    (h : writeHint fileId dataLen index algo keys nonce = .ok data) :
    ∃ stored, openBody ks fileId keys.isSome stored = .ok (Compress.pack (hintBody index) algo).1 ∧
      readHint data ks = readBody ks fileId dataLen index.size
        (Compression.fromFlag (Compress.pack (hintBody index) algo).2) keys.isSome stored := by
  obtain ⟨stored, hst, h⟩ := except_bind_ok.mp h
  obtain rfl := Except.ok.inj h
  refine ⟨stored, ?_, readHint_of_head _ _ _ _ hd hs⟩
  cases keys with
  | none =>
      obtain rfl := Except.ok.inj hst
      rfl
  | some k =>
      obtain ⟨o, rfl, ho⟩ := hc k rfl
      simp only [openBody, Option.isSome_some, if_true, openWith_seal ho hst]

theorem readHint_of_unpack (hc : CanOpen ks keys) (hd : dataLen < 2 ^ 64) (hs : index.size < 2 ^ 64)
    (hf : ∀ p ∈ index.toList, Fits dataLen p)
    (hu : Compress.unpack (Compress.pack (hintBody index) algo).1
      (Compression.fromFlag (Compress.pack (hintBody index) algo).2) = .ok (hintBody index))
    (h : writeHint fileId dataLen index algo keys nonce = .ok data) :
    readHint data ks = .ok (reread fileId dataLen index algo keys) := by
  have hlen : (index.toList.map fun p => (p.1, { p.2.reread with version := 0 })).length = index.size := by
    rw [List.length_map, Std.ExtTreeMap.length_toList]
  have he : readEntries dataLen (hintBody index).length (hintBody index) =
      .ok (index.toList.map fun p => (p.1, { p.2.reread with version := 0 })) :=
    readEntries_flatMap hd _ hf le_rfl
  obtain ⟨stored, ho, hr⟩ := readHint_writeHint_eq hc hd hs h
  rw [hr, readBody, ho]
  simp only [bind, Except.bind, hu, he, hlen, ne_eq, not_true_eq_false, if_false]
  rfl

/-- What is written is read back, when it was left uncompressed or is not
larger than a value may be. -/
theorem readHint_writeHint (hc : CanOpen ks keys) (hd : dataLen < 2 ^ 64) (hs : index.size < 2 ^ 64)
    (hb : (Compress.pack (hintBody index) algo).2 = 0 ∨ (hintBody index).length ≤ maxValueLen)
    (hf : ∀ p ∈ index.toList, Fits dataLen p)
    (h : writeHint fileId dataLen index algo keys nonce = .ok data) :
    readHint data ks = .ok (reread fileId dataLen index algo keys) :=
  readHint_of_unpack hc hd hs hf (Compress.unpack_pack_of hb) h

/-- Else it is not read at all. -/
theorem readHint_writeHint_or (hc : CanOpen ks keys) (hd : dataLen < 2 ^ 64) (hs : index.size < 2 ^ 64)
    (hf : ∀ p ∈ index.toList, Fits dataLen p)
    (h : writeHint fileId dataLen index algo keys nonce = .ok data) :
    readHint data ks = .ok (reread fileId dataLen index algo keys) ∨ ∃ err, readHint data ks = .error err := by
  rcases Compress.unpack_pack_or (hintBody index) algo with hu | ⟨err, hu⟩
  · exact .inl (readHint_of_unpack hc hd hs hf hu h)
  · refine .inr ⟨bad "body cannot be decompressed", ?_⟩
    obtain ⟨stored, ho, hr⟩ := readHint_writeHint_eq hc hd hs h
    rw [hr, readBody, ho]
    simp only [bind, Except.bind, hu]

end

end KivaDb.Hint
