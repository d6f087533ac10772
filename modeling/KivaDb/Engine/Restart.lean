import KivaDb.Engine.Logged
import KivaDb.Engine.Moves

namespace KivaDb

open Lib.LittleEndian Lib.Utf8 Lib.Flags Lib.Fallible Format Crypt Log Relation

section

variable [External]

/-- The index `ix` could be written as a snapshot of the appends `as`. -/
structure Snapshot (t : Int64) (keys : Option Keys) (as : List Append) (ix : Index) : Prop where
  agree : Agree t ix (scanned keys as).1
  fits : ∀ p ∈ ix.toList, Hint.Fits (fileHeaderLen + logLen keys as) p
  settles : ∀ p ∈ ix.toList, Settles t p.2.expiresAt
  count : ix.size ≤ fileHeaderLen + logLen keys as

omit [External] in
/-- The entries of a snapshot are listed as they are, under new versions. -/
theorem foldl_listEntry (ps : List (String × Entry)) (s : Index × Nat) (k : String) :
    (∃ e v, (k, e) ∈ ps ∧ (ps.foldl listEntry s).1[k]? = some { e with version := v }) ∨
      k ∉ ps.map Prod.fst ∧ (ps.foldl listEntry s).1[k]? = s.1[k]? := by
  induction ps generalizing s with
  | nil => exact .inr ⟨by simp, rfl⟩
  | cons p ps ih =>
      rcases ih (listEntry s p) with ⟨e, v, hm, he⟩ | ⟨hn, he⟩
      · exact .inl ⟨e, v, List.mem_cons_of_mem p hm, he⟩
      · have hl : (listEntry s p).1[k]? = if p.1 = k then some { p.2 with version := s.2 + 1 } else s.1[k]? :=
          Table.getElem?_insert s.1 p.1 k _
        rw [hl] at he
        split at he
        · rename_i hk
          subst hk
          exact .inl ⟨p.2, s.2 + 1, List.mem_cons_self, he⟩
        · rename_i hk
          refine .inr ⟨?_, he⟩
          rw [List.map_cons, List.mem_cons, not_or]
          exact ⟨Ne.symm hk, hn⟩

theorem Snapshot.listed {t : Int64} {keys : Option Keys} {as : List Append} {ix : Index} (h : Snapshot t keys as ix)
    (fileId : UInt64) (algo : Compression) :
    Agree t ((Hint.reread fileId (fileHeaderLen + logLen keys as) ix algo keys).entries.foldl listEntry (∅, 0)).1
      (scanned keys as).1 := by
  refine Agree.trans (fun k => ?_) h.agree
  rcases foldl_listEntry (Hint.reread fileId (fileHeaderLen + logLen keys as) ix algo keys).entries (∅, 0) k with
    ⟨e, v, hm, he⟩ | ⟨hn, he⟩
  · obtain ⟨p, hp, hpe⟩ := List.mem_map.mp hm
    obtain ⟨rfl, rfl⟩ := Prod.mk.inj hpe
    rw [he, Std.ExtTreeMap.mem_toList_iff_getElem?_eq_some.mp hp, shown_version t _ v, shown_version t p.2.reread 0,
      shown_reread (h.settles p hp)]
  · have hnone : ix[k]? = none := by
      rw [Option.eq_none_iff_forall_ne_some]
      intro e he'
      refine hn ?_
      have hm : (k, e) ∈ ix.toList := Std.ExtTreeMap.mem_toList_iff_getElem?_eq_some.mpr he'
      exact List.mem_map.mpr ⟨_, List.mem_map_of_mem hm, rfl⟩
    rw [he, hnone]
    simp

/-- Some appends and a snapshot of them, which lists what they left. -/
theorem scanLog_listed {t : Int64} {keys ks : Option Keys} {req : Bool} {as₁ as₂ : List Append} {bufs : List Bytes}
    {head : Bytes} (h : List.Forall₂ (Laid keys) (as₁ ++ as₂) bufs) (hhead : head.length = fileHeaderLen)
    (hr : ∀ a ∈ as₁ ++ as₂, ∀ r ∈ a.records, r.2.Readable keys) (hc : CanOpen ks keys)
    (hq : req = true → keys.isSome) {s : Index × Nat} (hs : Agree t s.1 (scanned keys as₁).1) :
    ∃ o, scanLog (head ++ bufs.flatten) (fileHeaderLen + logLen keys as₁) s.1 s.2 ks req = .ok o ∧
      o.stop = (head ++ bufs.flatten).length ∧ Agree t o.index (scanned keys (as₁ ++ as₂)).1 := by
  obtain ⟨bufs₁, bufs₂, rfl, h₁, h₂⟩ : ∃ bufs₁ bufs₂, bufs = bufs₁ ++ bufs₂ ∧
      List.Forall₂ (Laid keys) as₁ bufs₁ ∧ List.Forall₂ (Laid keys) as₂ bufs₂ := by
    refine ⟨bufs.take as₁.length, bufs.drop as₁.length, (List.take_append_drop _ _).symm, ?_, ?_⟩
    · simpa using List.forall₂_take as₁.length h
    · simpa using List.forall₂_drop as₁.length h
  have hlen : (head ++ bufs₁.flatten).length = fileHeaderLen + logLen keys as₁ := by
    rw [List.length_append, hhead, length_laid h₁]
  have hscan := scanLog_laid h₂ (fun a ha => hr a (List.mem_append_right _ ha)) hc hq (head ++ bufs₁.flatten) s
  rw [hlen, List.append_assoc, ← List.flatten_append] at hscan
  refine ⟨_, hscan, rfl, ?_⟩
  rw [scanned_append]
  exact agree_foldl _ hs

omit [External] in
theorem readFileHeader_eq {file rest : Bytes} {fileId : UInt64} {format : UInt32}
    (hf : file = fileHeader fileId format ++ rest) (h : formatV1 ≤ format ∧ format ≤ formatVersion) :
    readFileHeader file = .ok (fileId, format) := by
  have hlen := length_fileHeader fileId format
  have h16 : fileHeaderLen = 16 := rfl
  have htake : file.take fileHeaderLen = fileHeader fileId format := by rw [hf, List.take_left' hlen]
  have hparts : fileHeader fileId format = magic ++ (le32 format ++ (le64 fileId ++ [])) := by
    simp [fileHeader]
  have h0 : slice (fileHeader fileId format) 0 4 = magic := slice_eq_of_append (p := []) hparts rfl rfl
  have h4 : u32At (fileHeader fileId format) 4 = format := u32At_of_append hparts rfl
  have h8 : u64At (fileHeader fileId format) 8 = fileId :=
    u64At_of_append (p := magic ++ le32 format) (by simpa only [List.append_assoc] using hparts) rfl
  have hsig : ¬ ((fileHeader fileId format).length < fileHeaderLen ∨ slice (fileHeader fileId format) 0 4 ≠ magic) := by
    rw [h0, hlen]
    simp
  have hver : ¬ (format < formatV1 ∨ formatVersion < format) := by
    rintro (hlt | hlt)
    · exact UInt32.not_le.mpr hlt h.1
    · exact UInt32.not_le.mpr hlt h.2
  have hshort : ¬ file.length < fileHeaderLen := by
    rw [hf, List.length_append, hlen]
    omega
  simp only [readFileHeader, hshort, if_false, htake, parseFileHeader, hsig, h4, hver, h8]

end

section

variable [External] [Chrono] [Vectors]

/-- `data` is a snapshot of some of the appends `as` of the file of `i`. -/
def Snapped (t : Int64) (i : Inner) (as : List Append) (data : Bytes) : Prop :=
  ∃ as₁ as₂ ix algo nonce, as = as₁ ++ as₂ ∧ Snapshot t i.keys as₁ ix ∧
    Hint.writeHint i.fileId (fileHeaderLen + logLen i.keys as₁) ix algo i.keys nonce = .ok data

/-- What is loaded, from a snapshot or not, is what a scan of some of the
appends gives; the others are still to be replayed. -/
theorem loadHint_agree {t : Int64} {i : Inner} {as : List Append} {opts : EngineOptions} {hint : Option Bytes}
    (hh : ∀ data ∈ hint, Snapped t i as data) (hc : CanOpen opts.keys i.keys)
    (hl : fileHeaderLen + logLen i.keys as < 2 ^ 64) (fileLen : Nat) :
    ∃ as₁ as₂, as = as₁ ++ as₂ ∧ (loadHint opts i.fileId fileLen hint).2 = fileHeaderLen + logLen i.keys as₁ ∧
      Agree t (loadHint opts i.fileId fileLen hint).1.1 (scanned i.keys as₁).1 := by
  have hscan : ∃ as₁ as₂, as = as₁ ++ as₂ ∧ (((∅, 0), fileHeaderLen) : (Index × Nat) × Nat).2 =
      fileHeaderLen + logLen i.keys as₁ ∧ Agree t (((∅, 0), fileHeaderLen) : (Index × Nat) × Nat).1.1
        (scanned i.keys as₁).1 := ⟨[], as, rfl, rfl, .rfl' t _⟩
  unfold loadHint
  cases hint with
  | none => exact hscan
  | some data =>
      obtain ⟨as₁, as₂, ix, algo, nonce, rfl, hs, hw⟩ := hh data rfl
      have hlen : fileHeaderLen + logLen i.keys as₁ < 2 ^ 64 := by
        rw [logLen_append] at hl
        omega
      have hsize : ix.size < 2 ^ 64 := Nat.lt_of_le_of_lt hs.count hlen
      rcases Hint.readHint_writeHint_or hc hlen hsize hs.fits hw with hr | ⟨err, hr⟩
      · simp only [Option.map_some, hr]
        split
        · exact ⟨as₁, as₂, rfl, rfl, hs.listed _ _⟩
        · exact hscan
      · simp only [Option.map_some, hr]
        exact hscan

variable [Codec]

omit [Codec] in
theorem Backed.content {i : Inner} {k : String} {e : Entry} (h : Backed i k e) {j : Inner} (hf : j.file = i.file)
    (hc : CanOpen j.keys i.keys) :
    j.readRaw k e = i.readRaw k e ∧ ∃ rec kv, j.readAt e.offset e.recLen = some rec ∧ openRecord j.keys rec = .ok kv := by
  obtain ⟨w, role, rec, hw, hrole, -, -, hat, hentry⟩ := h
  obtain ⟨-, -, raw, hu, -⟩ := Write.entry_content hentry
  have hat' : j.readAt e.offset e.recLen = some rec := by
    rw [Inner.readAt, hf]
    exact hat
  have hu' : Compress.unpack w.stored e.compression = .ok raw := hu
  have ho := hw.openRecord_eq hrole (canOpen_self i.keys)
  have ho' := hw.openRecord_eq hrole hc
  exact ⟨by rw [Inner.readRaw_eq hat' hw.verify ho' hu', Inner.readRaw_eq hat hw.verify ho hu'], rec, _, hat', ho'⟩

omit [Codec] in
/-- Opened at `t`, the data file gives back what the engine holds at `t`, with a
snapshot or without one. -/
theorem openFile_logged {t : Int64} {i : Inner} {as : List Append} (h : Logged t i as) {opts : EngineOptions}
    {hint : Option Bytes} (hh : ∀ data ∈ hint, Snapped t i as data) (hc : CanOpen opts.keys i.keys)
    (hq : opts.requireEncryption = true → i.keys.isSome) (hl : i.file.length < 2 ^ 64) (newId : Except String UInt64) :
    ∃ j, openFile opts i.file hint newId t = .ok j ∧ ∀ k, j.content k t = i.content k t := by
  obtain ⟨bufs, hlaid, hf⟩ := h.laid
  obtain ⟨as₁, as₂, rfl, hfrom, hag⟩ := loadHint_agree hh hc (h.length_file ▸ hl) i.file.length
  obtain ⟨o, ho, hstop, hagree⟩ := scanLog_listed hlaid (length_fileHeader i.fileId i.format) h.readable hc hq hag
  rw [← hf, ← hfrom] at ho
  rw [← hf] at hstop
  have hne : i.file ≠ [] := by
    intro hn
    have := h.placed.header
    rw [hn] at this
    exact absurd this (by decide)
  set j := Inner.opened opts (i.file.take o.stop) i.fileId i.format (o.index.filter fun _ e => ¬ e.isExpired t) o.seq
    with hj
  have hjf : j.file = i.file := by
    have htake : j.file = i.file.take o.stop := rfl
    rw [htake, hstop, List.take_length]
  have hjk : j.keys = opts.keys := rfl
  -- what is left after the expired keys are dropped is what the engine shows
  have hjx (k : String) : j.index[k]? = (o.index[k]?).filter fun e => ¬ e.isExpired t := by
    have hx : j.index = o.index.filter fun _ e => ¬ e.isExpired t := rfl
    rw [hx, Std.ExtTreeMap.getElem?_filter']
  have hshown (k : String) : (j.index[k]?).map Entry.bare = (i.at? k t).map Entry.bare := by
    rw [hjx]
    exact ((h.agree.trans hagree.symm) k).symm
  have hsame {k : String} {e' : Entry} (he' : j.index[k]? = some e') :
      ∃ e v, i.at? k t = some e ∧ e' = { e with version := v } ∧ Backed i k e := by
    have hk := hshown k
    rw [he', Option.map_some] at hk
    obtain ⟨e, he, hb⟩ := Option.map_eq_some_iff.mp hk.symm
    obtain ⟨v, hv⟩ := Entry.eq_of_bare hb.symm
    exact ⟨e, v, he, hv, h.backed k e (Option.filter_eq_some_iff.mp he).1⟩
  have hcheck : j.checkKeys = .ok () := by
    unfold Inner.checkKeys
    split
    · rfl
    · rename_i k e' hfind
      have hm := List.mem_of_find?_eq_some hfind
      obtain ⟨e, v, -, rfl, hback⟩ := hsame (Std.ExtTreeMap.mem_toList_iff_getElem?_eq_some.mp hm)
      obtain ⟨-, rec, kv, hat, hopen⟩ := hback.content hjf (hjk.symm ▸ hc)
      have hread : j.readAt ({ e with version := v } : Entry).offset ({ e with version := v } : Entry).recLen = some rec :=
        hat
      simp only [hread, hopen]
  refine ⟨j, ?_, fun k => ?_⟩
  · simp only [openFile, hne, if_false, readFileHeader_eq hf h.format, bind, Except.bind, ho, ← hj, hcheck]
  · have hat : j.at? k t = j.index[k]? := by
      rw [Inner.at?, hjx, Option.filter_filter]
      simp
    rw [Inner.content, Inner.content, hat]
    cases he' : j.index[k]? with
    | none =>
        have hk := hshown k
        rw [he', Option.map_none] at hk
        rw [Option.map_eq_none_iff.mp hk.symm]
        rfl
    | some e' =>
        obtain ⟨e, v, he, rfl, hback⟩ := hsame he'
        obtain ⟨hraw, -⟩ := hback.content hjf (hjk.symm ▸ hc)
        have hraw' : j.readRaw k { e with version := v } = i.readRaw k e := hraw
        rw [he, Option.map_some, Option.map_some, hraw']
        rfl

/-- A session whose data file and snapshot tell what the engine holds at `t`. -/
structure Kept (t : Int64) (s : Session) (as : List Append) : Prop where
  logged : Logged t s.inner as
  snapped : ∀ data ∈ s.hint, Snapped t s.inner as data

omit [Codec] in
theorem Logged.snapshot {t : Int64} {i : Inner} {as : List Append} (h : Logged t i as) :
    Snapshot t i.keys as i.index := by
  refine ⟨h.agree, fun p hp => ?_, fun p hp => ?_, h.length_file ▸ h.count⟩
  · have he := Std.ExtTreeMap.mem_toList_iff_getElem?_eq_some.mp hp
    obtain ⟨w, role, rec, -, -, hk, -, -, hentry⟩ := h.backed p.1 p.2 he
    have hin := (h.placed.entries p.1 p.2 he).2
    refine ⟨hk ▸ w.key.length_pos, hk ▸ w.key.length_lt, ?_, h.length_file ▸ hin⟩
    cases w with
    | put key raw ty enc algo ts ex =>
        have hb := congrArg Entry.kSize (Option.some.inj hentry)
        exact hk ▸ hb.symm
    | delete key ts => simp [Write.entry] at hentry
  · exact (h.sound p.1 p.2 (Std.ExtTreeMap.mem_toList_iff_getElem?_eq_some.mp hp)).2

omit [Codec] in
/-- A reset is refused, or leaves nothing. -/
theorem reset_cases (s : Session) (fileId : Except String UInt64) :
    s.reset fileId = s ∨ ∃ id, s.reset fileId = { inner := s.inner.wiped id, hint := none } := by
  unfold Session.reset
  cases hr : KivaDb.reset fileId s.inner with
  | error e i =>
      left
      rcases bind_error.mp hr with hr | ⟨j, _, hg, hr⟩
      · simp at hr
      · obtain ⟨rfl, rfl⟩ := get_ok.mp hg
        split at hr
        · rw [← (throw_error.mp hr).2]
        · split at hr
          · rw [← (throw_error.mp hr).2]
          · split at hr
            · rw [← (throw_error.mp hr).2]
            · simp at hr
  | ok u i =>
      right
      obtain ⟨j, _, hg, hr⟩ := bind_ok.mp hr
      obtain ⟨rfl, rfl⟩ := get_ok.mp hg
      split at hr
      · simp at hr
      · split at hr
        · simp at hr
        · split at hr
          · simp at hr
          · exact ⟨_, by rw [← set_ok.mp hr]⟩

namespace Kept

variable {t : Int64} {s : Session} {as : List Append}

theorem moves (h : Kept t s as) {i' : Inner} (hm : ReflTransGen (Move t) s.inner i') :
    ∃ more, Kept t { s with inner := i' } (as ++ more) := by
  obtain ⟨more, hl⟩ := h.logged.moves hm
  refine ⟨more, hl, fun data hd => ?_⟩
  obtain ⟨as₁, as₂, ix, algo, nonce, rfl, hs, hw⟩ := h.snapped data hd
  refine ⟨as₁, as₂ ++ more, ix, algo, nonce, List.append_assoc _ _ _, ?_, ?_⟩
  · rw [Move.keys hm]
    exact hs
  · rw [Move.keys hm, Move.fileId hm]
    exact hw

omit [Codec] in
theorem writeHint (h : Kept t s as) (nonce : Draw) : Kept t (s.writeHint nonce) as := by
  unfold Session.writeHint
  split
  · rename_i data hw
    refine ⟨h.logged, ?_⟩
    rintro _ ⟨⟩
    rw [h.logged.length_file] at hw
    exact ⟨as, [], s.inner.index, s.inner.compression, nonce, (List.append_nil as).symm, h.logged.snapshot, hw⟩
  · exact h

omit [Codec] in
theorem snapshot (h : Kept t s as) (nonce : Draw) : Kept t (s.snapshot nonce) as := by
  unfold Session.snapshot
  split
  · exact h
  · exact h.writeHint nonce

omit [Codec] in
theorem reset (h : Kept t s as) (fileId : Except String UInt64) : ∃ as', Kept t (s.reset fileId) as' := by
  rcases reset_cases s fileId with hr | ⟨id, hr⟩
  · rw [hr]
    exact ⟨as, h⟩
  · rw [hr]
    exact ⟨[], Inner.Fresh.logged ⟨rfl, rfl, rfl⟩ t, by simp⟩

end Kept

/-- What a call has to be like for the file to tell, at `t`, what the engine
holds: its deadlines are read back as they were given or have passed either way,
and a batch that writes something is not encrypted. -/
def Call.Plain (t : Int64) (s : Session) (clock : Clock) : Call → Prop
  | .put _ _ ex _ _ => Settles t ex
  | .applyBatch ops _ _ _ => (∀ op ∈ ops, Settles t op.deadline) ∧
      (s.inner.keys = none ∨ ∀ op ∈ ops, op.idle s.inner (clock.now 0) = true)
  | _ => True

def Call.isReset : Call → Bool
  | .reset _ => true
  | _ => false

/-- Every call of a run is plain, in the state it meets. -/
def Session.Plain (t : Int64) : Session → List (Clock × Call) → Prop
  | _, [] => True
  | s, (clock, c) :: calls => c.Plain t s clock ∧ (s.step clock c).Plain t calls

/-- The clock never shows more than `t` during the run. -/
def Before (t : Int64) (calls : List (Clock × Call)) : Prop := ∀ p ∈ calls, ∀ n, p.1.now n ≤ t

theorem plain_append {t : Int64} (calls more : List (Clock × Call)) {s : Session} (h : s.Plain t (calls ++ more)) :
    s.Plain t calls ∧ (s.run calls).Plain t more := by
  induction calls generalizing s with
  | nil => exact ⟨trivial, h⟩
  | cons p calls ih =>
      obtain ⟨h1, h2⟩ := ih h.2
      exact ⟨⟨h.1, h1⟩, h2⟩

section

variable {t : Int64} {s : Session} {clock : Clock} {c : Call}

theorem step_moves (hs : s.inner.Sound t) (ht : ∀ n, clock.now n ≤ t) (hp : c.Plain t s clock)
    (hr : c.isReset = false) : ReflTransGen (Move t) s.inner (s.step clock c).inner := by
  cases c with
  | live key => exact (within_live key _).moves (ht 0) s.inner
  | put key value ex msgpack nonce => exact within_put (ht 4) hp value msgpack s.inner
  | updateWith key f nonce => exact updateWith_moves (ht 5) hs f
  | delete key nonce => exact delete_moves (ht 0) hs
  | applyBatch ops beginSeq watched draws => exact applyBatchWatched_moves (ht 2) hs hp.1 hp.2
  | purgeExpired => exact (within_purgeExpired _).moves (ht 0) s.inner
  | snapshot nonce =>
      have hi : (s.snapshot nonce).inner = s.inner := by
        unfold Session.snapshot Session.writeHint
        split
        · rfl
        · split <;> rfl
      exact hi ▸ .refl
  | reset fileId => simp [Call.isReset] at hr

theorem Kept.step {as : List Append} (h : Kept t s as) (ht : ∀ n, clock.now n ≤ t) (hp : c.Plain t s clock) :
    ∃ as', Kept t (s.step clock c) as' := by
  have hm (hr : c.isReset = false) : ∃ more, Kept t { s with inner := (s.step clock c).inner } (as ++ more) :=
    h.moves (step_moves h.logged.sound ht hp hr)
  cases c with
  | live key => exact (hm rfl).imp' (as ++ ·) fun _ hk => hk
  | put key value ex msgpack nonce => exact (hm rfl).imp' (as ++ ·) fun _ hk => hk
  | updateWith key f nonce => exact (hm rfl).imp' (as ++ ·) fun _ hk => hk
  | delete key nonce => exact (hm rfl).imp' (as ++ ·) fun _ hk => hk
  | applyBatch ops beginSeq watched draws => exact (hm rfl).imp' (as ++ ·) fun _ hk => hk
  | purgeExpired => exact (hm rfl).imp' (as ++ ·) fun _ hk => hk
  | snapshot nonce => exact ⟨as, h.snapshot nonce⟩
  | reset fileId => exact h.reset fileId

/-- Along a run of plain calls the file and the snapshot keep telling what the
engine holds. -/
theorem Kept.run {calls : List (Clock × Call)} {as : List Append} (h : Kept t s as) (hb : Before t calls)
    (hp : s.Plain t calls) : ∃ as', Kept t (s.run calls) as' := by
  induction calls generalizing s as with
  | nil => exact ⟨as, h⟩
  | cons p calls ih =>
      obtain ⟨as', h'⟩ := h.step (hb p List.mem_cons_self) hp.1
      exact ih h' (fun q hq => hb q (List.mem_cons_of_mem p hq)) hp.2

theorem keys_step (hs : s.inner.Sound t) (ht : ∀ n, clock.now n ≤ t) (hp : c.Plain t s clock) :
    (s.step clock c).inner.keys = s.inner.keys := by
  cases hr : c.isReset with
  | false => exact Move.keys (step_moves hs ht hp hr)
  | true =>
      cases c with
      | reset fileId =>
          have hstep : s.step clock (.reset fileId) = s.reset fileId := rfl
          rw [hstep]
          rcases reset_cases s fileId with h | ⟨id, h⟩
          · rw [h]
          · rw [h]
            rfl
      | _ => simp [Call.isReset] at hr

theorem keys_run {calls : List (Clock × Call)} {as : List Append} (h : Kept t s as) (hb : Before t calls)
    (hp : s.Plain t calls) : (s.run calls).inner.keys = s.inner.keys := by
  induction calls generalizing s as with
  | nil => rfl
  | cons p calls ih =>
      obtain ⟨as', h'⟩ := h.step (hb p List.mem_cons_self) hp.1
      rw [← keys_step h.logged.sound (hb p List.mem_cons_self) hp.1]
      exact ih h' (fun q hq => hb q (List.mem_cons_of_mem p hq)) hp.2

/-- Without a reset the run only adds to the file. -/
theorem run_moves {calls : List (Clock × Call)} (hs : s.inner.Sound t) (hb : Before t calls)
    (hp : s.Plain t calls) (hr : ∀ p ∈ calls, p.2.isReset = false) :
    ReflTransGen (Move t) s.inner (s.run calls).inner := by
  induction calls generalizing s with
  | nil => exact .refl
  | cons p calls ih =>
      have hstep := step_moves hs (hb p List.mem_cons_self) hp.1 (hr p List.mem_cons_self)
      have hs' : (s.step p.1 p.2).inner.Sound t := by
        clear ih
        generalize (s.step p.1 p.2).inner = i' at hstep
        induction hstep with
        | refl => exact hs
        | tail hab hbc ih => exact ih.move hbc
      exact hstep.trans (ih hs' (fun q hq => hb q (List.mem_cons_of_mem p hq)) hp.2
        fun q hq => hr q (List.mem_cons_of_mem p hq))

end

omit [Codec] in
theorem Inner.Fresh.kept {i : Inner} (h : i.Fresh) (t : Int64) : Kept t ⟨i, none⟩ [] := ⟨h.logged t, by simp⟩

/-- Closing drops keys whose TTL has elapsed and writes a snapshot. -/
theorem Kept.close {t : Int64} {s : Session} {as : List Append} (h : Kept t s as) {now : Int64} (hn : now ≤ t)
    (nonce : Draw) :
    ∃ i, ReflTransGen (Drop now) s.inner i ∧ (s.close now nonce).inner.file = i.file ∧
      ∃ as' hint, Kept t ⟨i, hint⟩ as' ∧ (s.close now nonce).hint = hint := by
  unfold Session.close
  split
  · exact ⟨s.inner, .refl, rfl, as, s.hint, h, rfl⟩
  · have hd := within_purgeAllExpired now s.inner
    obtain ⟨more, hk⟩ := h.moves (Move.drops (Drop.mono_star hn hd))
    have hw := hk.writeHint nonce
    have hi : ({ s with inner := left (purgeAllExpired now) s.inner } : Session).writeHint nonce =
        ⟨left (purgeAllExpired now) s.inner,
          (({ s with inner := left (purgeAllExpired now) s.inner } : Session).writeHint nonce).hint⟩ := by
      unfold Session.writeHint
      split <;> rfl
    rw [hi] at hw
    refine ⟨left (purgeAllExpired now) s.inner, hd, ?_, as ++ more, _, hw, rfl⟩
    dsimp only
    rw [hi]

/-- Restart gives back the live state: at `t`, after a run of plain calls, the
data file opened by a full scan or from the snapshot that closing wrote gives
every key the content that the running engine shows. -/
theorem restart_gives_back {i : Inner} (hi : i.Fresh) {t : Int64} {calls : List (Clock × Call)} (hb : Before t calls)
    (hp : Session.Plain t ⟨i, none⟩ calls) {now : Int64} (hn : now ≤ t) (nonce : Draw) {opts : EngineOptions}
    (hc : CanOpen opts.keys i.keys) (hq : opts.requireEncryption = true → i.keys.isSome)
    (hl : (Session.run ⟨i, none⟩ calls).inner.file.length < 2 ^ 64) (newId : Except String UInt64) :
    let running := Session.run ⟨i, none⟩ calls
    let closed := running.close now nonce
    ∀ hint, hint = none ∨ hint = closed.hint →
      ∃ j, openFile opts closed.inner.file hint newId t = .ok j ∧ ∀ k, j.content k t = running.inner.content k t := by
  intro running closed hint hh
  obtain ⟨as, hk⟩ := (hi.kept t).run hb hp
  obtain ⟨i₁, hd, hf, as', hint', hk', hhint⟩ := hk.close hn nonce
  have hkeys : i₁.keys = i.keys := by
    rw [Drop.frame_star hd]
    exact keys_run (hi.kept t) hb hp
  have hfile : i₁.file = running.inner.file := by rw [Drop.frame_star hd]
  have hsnap : ∀ data ∈ hint, Snapped t i₁ as' data := by
    rcases hh with rfl | rfl
    · simp
    · intro data hdata
      exact hk'.snapped data (hhint ▸ hdata)
  obtain ⟨j, hj, hcont⟩ := openFile_logged hk'.logged hsnap (hkeys ▸ hc) (hkeys ▸ hq) (hfile ▸ hl) newId
  refine ⟨j, hf ▸ hj, fun k => ?_⟩
  rw [hcont, content_drops hd hn]

/-- Loading from a snapshot is a full scan: the snapshot of the index at any
point of a run of plain calls, and the replay of what the file has gained since,
give the same keys with the same entries as the replay of the whole file, but for
versions and for keys that have expired at `t`. -/
theorem hint_load_is_full_scan {i : Inner} (hi : i.Fresh) {t : Int64} {before after : List (Clock × Call)}
    (hb : Before t (before ++ after)) (hp : Session.Plain t ⟨i, none⟩ (before ++ after))
    (hr : ∀ p ∈ after, p.2.isReset = false) {nonce : Draw} {data : Bytes} {ks : Option Keys} {req : Bool}
    (hc : CanOpen ks i.keys) (hq : req = true → i.keys.isSome)
    (hl : (Session.run ⟨i, none⟩ (before ++ after)).inner.file.length < 2 ^ 64) :
    let then_ := (Session.run ⟨i, none⟩ before).inner
    let now := (Session.run ⟨i, none⟩ (before ++ after)).inner
    (Compress.pack (Hint.hintBody then_.index) then_.compression).2 = 0 ∨
        (Hint.hintBody then_.index).length ≤ maxValueLen →
      Hint.writeHint then_.fileId then_.file.length then_.index then_.compression then_.keys nonce = .ok data →
      ∃ hd fromHint full, Hint.readHint data ks = .ok hd ∧ hd.fileId = now.fileId ∧ hd.dataLen = then_.file.length ∧
        scanLog now.file hd.dataLen (hd.entries.foldl listEntry (∅, 0)).1 (hd.entries.foldl listEntry (∅, 0)).2 ks req =
          .ok fromHint ∧
        scanLog now.file fileHeaderLen ∅ 0 ks req = .ok full ∧ Agree t fromHint.index full.index := by
  intro then_ now hbody hw
  obtain ⟨hp₁, hp₂⟩ := plain_append before after hp
  obtain ⟨as₁, hk₁⟩ := (hi.kept t).run (fun p hm => hb p (List.mem_append_left _ hm)) hp₁
  have hkeys₁ : then_.keys = i.keys := keys_run (hi.kept t) (fun p hm => hb p (List.mem_append_left _ hm)) hp₁
  have hm := run_moves hk₁.logged.sound (fun p hm => hb p (List.mem_append_right _ hm)) hp₂ hr
  have hnow : ((Session.run ⟨i, none⟩ before).run after).inner = now := by
    simp only [now, Session.run, List.foldl_append]
  rw [hnow] at hm
  obtain ⟨as₂, hl₂⟩ := hk₁.logged.moves hm
  have hkeys₂ : now.keys = then_.keys := Move.keys hm
  have hlen₁ : then_.file.length = fileHeaderLen + logLen then_.keys as₁ := hk₁.logged.length_file
  have hlen₂ := hl₂.length_file
  rw [hkeys₂, logLen_append] at hlen₂
  have hlt : then_.file.length < 2 ^ 64 := by
    have hl' : now.file.length < 2 ^ 64 := hl
    omega
  have hsnap := hk₁.logged.snapshot
  have hread := Hint.readHint_writeHint (hkeys₁ ▸ hc : CanOpen ks then_.keys) hlt
    (Nat.lt_of_le_of_lt hk₁.logged.count hlt) hbody (fun p hp => hlen₁ ▸ hsnap.fits p hp) hw
  obtain ⟨bufs, hlaid, hf⟩ := hl₂.laid
  have hread' := hl₂.readable
  rw [hkeys₂] at hlaid hread'
  have hag := hsnap.listed then_.fileId then_.compression
  have hag' : Agree t ((∅ : Index), 0).1 (scanned then_.keys []).1 := .rfl' t _
  obtain ⟨o₁, ho₁, -, h₁⟩ := scanLog_listed hlaid (length_fileHeader now.fileId now.format) hread' (hkeys₁ ▸ hc)
    (hkeys₁ ▸ hq) hag
  obtain ⟨o₂, ho₂, -, h₂⟩ := @scanLog_listed _ _ _ _ _ [] _ _ _ hlaid (length_fileHeader now.fileId now.format) hread'
    (hkeys₁ ▸ hc) (hkeys₁ ▸ hq) _ hag'
  have hfile : now.file = fileHeader now.fileId now.format ++ bufs.flatten := hf
  refine ⟨_, o₁, o₂, hread, (Move.fileId hm).symm, rfl, ?_, ?_, h₁.trans h₂.symm⟩
  · rw [hfile, hlen₁]
    exact ho₁
  · rw [hfile]
    exact ho₂

end

section

open Reference

local instance restartCodec : Codec := codec []

def plainOptions : EngineOptions := ⟨none, false, .none, 0, 0⟩

def noNonce : Draw := .error "not drawn"

/-- An instant of the year 2001, in milliseconds. -/
def someday : Int64 := 1000000000000

theorem fresh_fresh (keys : Option Keys) : (fresh keys).Fresh := ⟨rfl, rfl, rfl⟩

/-- A key without deadline and a key that lasts. -/
def lastingCalls : List (Clock × Call) :=
  [(Clock.still 5, .put "a" (.str "x") 0 false noNonce),
    (Clock.still 6, .put "b" (.str "y") 2000000000000 false noNonce)]

theorem before_lastingCalls : Before someday lastingCalls := by
  intro p hp n
  simp only [lastingCalls, List.mem_cons, List.not_mem_nil, or_false] at hp
  rcases hp with rfl | rfl
  · exact (by decide : (5 : Int64) ≤ someday)
  · exact (by decide : (6 : Int64) ≤ someday)

theorem plain_lastingCalls : Session.Plain someday ⟨fresh none, none⟩ lastingCalls :=
  ⟨settles_zero _, .inl (by decide), trivial⟩

theorem restart_gives_back_sample :
    ∃ j, openFile plainOptions ((Session.run ⟨fresh none, none⟩ lastingCalls).close 7 noNonce).inner.file none (.ok 2)
        someday = .ok j ∧
      ∀ k, j.content k someday = (Session.run ⟨fresh none, none⟩ lastingCalls).inner.content k someday :=
  restart_gives_back (fresh_fresh none) before_lastingCalls plain_lastingCalls (by decide) noNonce
    (canOpen_self none) (by simp [plainOptions]) (by decide) (.ok 2) none (.inl rfl)

/-- A deadline of 1971 in milliseconds. -/
def lapsedCalls : List (Clock × Call) := [(Clock.still someday, .put "a" (.str "x") 50000000000 false noNonce)]

/-- A key whose deadline had passed when it was written is not there while the
engine runs, and is there again once its file is scanned: its deadline is taken
for one in seconds. -/
theorem lapsed_key_comes_back :
    ((Session.run ⟨fresh none, none⟩ lapsedCalls).inner.content "a" someday).isSome = false ∧
      (openFile plainOptions ((Session.run ⟨fresh none, none⟩ lapsedCalls).close someday noNonce).inner.file none (.ok 2)
        someday).map (fun j => (j.content "a" someday).isSome) = .ok true := by
  constructor
  · decide
  · decide +kernel

/-- The snapshot of an engine in clear. -/
def snapshotOf (i : Inner) : Result Bytes :=
  Hint.writeHint i.fileId i.file.length i.index i.compression i.keys noNonce

theorem hint_load_is_full_scan_sample : ∃ data hd fromHint full,
    snapshotOf (Session.run ⟨fresh none, none⟩ (lastingCalls.take 1)).inner = .ok data ∧
      Hint.readHint data none = .ok hd ∧
      scanLog (Session.run ⟨fresh none, none⟩ lastingCalls).inner.file hd.dataLen
        (hd.entries.foldl listEntry (∅, 0)).1 (hd.entries.foldl listEntry (∅, 0)).2 none false = .ok fromHint ∧
      scanLog (Session.run ⟨fresh none, none⟩ lastingCalls).inner.file fileHeaderLen ∅ 0 none false = .ok full ∧
      Agree someday fromHint.index full.index := by
  obtain ⟨data, hdata⟩ : ∃ data, snapshotOf (Session.run ⟨fresh none, none⟩ (lastingCalls.take 1)).inner = .ok data :=
    ⟨_, rfl⟩
  obtain ⟨hd, o, o', hread, -, -, h₁, h₂, hag⟩ := @hint_load_is_full_scan _ _ _ _ _ (fresh_fresh none)
    someday (lastingCalls.take 1) (lastingCalls.drop 1) before_lastingCalls plain_lastingCalls
    (by simp [lastingCalls, Call.isReset]) noNonce data none false (canOpen_self none) (by simp) (by decide) (.inl rfl) hdata
  exact ⟨data, hd, o, o', hdata, hread, h₁, h₂, hag⟩

/-- A key that was dropped because its deadline had passed is in no snapshot; a
full scan of the file lists it, and finds its deadline to come. -/
theorem lapsed_key_is_scanned_only :
    ((snapshotOf (Session.run ⟨fresh none, none⟩ (lapsedCalls ++ [(Clock.still someday, .purgeExpired)])).inner).bind
        fun data => (Hint.readHint data none).bind fun hd =>
          (scanLog (Session.run ⟨fresh none, none⟩ (lapsedCalls ++ [(Clock.still someday, .purgeExpired)])).inner.file
            hd.dataLen (hd.entries.foldl listEntry (∅, 0)).1 (hd.entries.foldl listEntry (∅, 0)).2 none false).map
            fun o => (shown someday o.index["a"]?).isSome) = .ok false ∧
      (scanLog (Session.run ⟨fresh none, none⟩ (lapsedCalls ++ [(Clock.still someday, .purgeExpired)])).inner.file
        fileHeaderLen ∅ 0 none false).map (fun o => (shown someday o.index["a"]?).isSome) = .ok true := by
  constructor
  · decide +kernel
  · decide +kernel

end

end KivaDb
