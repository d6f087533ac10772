import KivaDb.Engine.Reads
import KivaDb.Engine.Sealed
import KivaDb.Agree
import Mathlib.Data.List.TakeWhile
import KivaDb.Hint

namespace KivaDb

open Lib.LittleEndian Lib.Utf8 Lib.Flags Lib.Fallible Format Crypt Log Relation

section

variable [External] [Chrono] [Vectors] [Codec]

namespace Inner

/-- Every key that is listed could be written again with its deadline. -/
def Sound (t : Int64) (i : Inner) : Prop :=
  ∀ (k : String) (e : Entry), i.index[k]? = some e → validateKey k = .ok () ∧ Settles t e.expiresAt

/-- Where an entry comes from after a commit: it was there before, or it is that
of a record of the commit, at its place. -/
theorem index_applyAllStaged (recs : List (Staged × Bytes)) {i : Inner} {base : Nat} {k : String} {e : Entry}
    (h : (i.applyAllStaged base recs).index[k]? = some e) :
    i.index[k]? = some e ∨ ∃ pre p post e', recs = pre ++ p :: post ∧ p.1.key = k ∧ p.1.entry = some e' ∧
      e = { e' with offset := base + (pre.flatMap Prod.snd).length, version := i.seq + pre.length + 1 } := by
  induction recs generalizing i base with
  | nil => exact .inl h
  | cons p recs ih =>
      rw [applyAllStaged] at h
      rcases ih (i := i.applyStaged base p.1) h with
        h | ⟨pre, q, post, e', rfl, hk, he, rfl⟩
      · rw [getElem?_applyStaged] at h
        split at h
        · rename_i hk
          obtain ⟨e', he, rfl⟩ := Option.map_eq_some_iff.mp h
          exact .inr ⟨[], p, recs, e', rfl, hk, he, by simp⟩
        · exact .inl h
      · refine .inr ⟨p :: pre, q, post, e', rfl, hk, he, ?_⟩
        have hseq : (i.applyStaged base p.1).seq + pre.length + 1 = i.seq + (p :: pre).length + 1 := by
          have h1 : (i.applyStaged base p.1).seq = i.seq + 1 := by rw [applyStaged_frame]
          rw [h1, List.length_cons]
          omega
        have hoff : base + p.2.length + (pre.flatMap Prod.snd).length = base + ((p :: pre).flatMap Prod.snd).length := by
          rw [List.flatMap_cons, List.length_append, Nat.add_assoc]
        rw [hseq, hoff]

theorem index_commit {i : Inner} {recs : List (Staged × Bytes)} {k : String} {e : Entry}
    (h : (i.commit recs).index[k]? = some e) :
    i.index[k]? = some e ∨ ∃ pre p post e', recs = pre ++ p :: post ∧ p.1.key = k ∧ p.1.entry = some e' ∧
      e = { e' with
        offset := (i.raiseFormat (formatNeeded (recs.flatMap Prod.snd))).file.length + (pre.flatMap Prod.snd).length
        version := i.seq + pre.length + 1 } := by
  have hseq : (i.extend (recs.flatMap Prod.snd)).seq = i.seq := by
    rw [extend, raiseFormat_eq]
  have hc := index_applyAllStaged recs h
  rw [index_extend, hseq] at hc
  exact hc

end Inner

/-- What a call can do to the state, seen up to the instant `t`: drop a key
whose TTL has elapsed, or append records and apply them. -/
inductive Move (t : Int64) : Inner → Inner → Prop
  | drop {i i' : Inner} (h : Drop t i i') : Move t i i'
  | commit {i : Inner} {recs : List (Staged × Bytes)} {a : Append} (hc : Commits i.keys recs a)
      (ha : ∀ r ∈ a.records, r.2.Readable i.keys ∧ Settles t r.1.expiresAt) : Move t i (i.commit recs)

theorem Move.drops {t : Int64} {i i' : Inner} (h : ReflTransGen (Drop t) i i') : ReflTransGen (Move t) i i' :=
  ReflTransGen.mono (fun _ _ hd => .drop hd) _ _ h

theorem Lib.Fallible.Within.moves {α : Type} {now t : Int64} (ht : now ≤ t) {m : M α} (h : Within (Drop now) m) :
    Within (Move t) m := fun s => Move.drops (h.later ht s)

theorem Move.keys {t : Int64} {i i' : Inner} (h : ReflTransGen (Move t) i i') : i'.keys = i.keys := by
  induction h with
  | refl => rfl
  | tail hab hbc ih =>
      cases hbc with
      | drop h => rw [h.frame, ih]
      | commit hc ha => rw [Inner.commit_frame, ih]

omit [Vectors] [Codec] in
/-- A record of an append, with the write it stands for. -/
theorem Commits.recorded {keys : Option Keys} {recs : List (Staged × Bytes)} {a : Append} (h : Commits keys recs a)
    {p : Staged × Bytes} (hp : p ∈ recs) : ∃ r ∈ a.records, Recorded keys r.1 r.2 p := by
  obtain ⟨n, hn, rfl⟩ := List.mem_iff_getElem.mp hp
  have hn' : n < a.records.length := h.length_eq ▸ hn
  exact ⟨a.records[n], List.getElem_mem hn', h.get hn hn'⟩

namespace Inner

omit [Codec] in
theorem Sound.drops {t : Int64} {i i' : Inner} (h : i.Sound t) {now : Int64} (hd : ReflTransGen (Drop now) i i') :
    i'.Sound t := by
  intro k e he
  rcases Drop.index_star hd k with hk | hk
  · exact h k e (hk ▸ he)
  · rw [hk.1] at he
    exact absurd he (by simp)

theorem Sound.move {t : Int64} {i i' : Inner} (h : i.Sound t) (hm : Move t i i') : i'.Sound t := by
  cases hm with
  | drop hd => exact h.drops (.single hd)
  | commit hc ha =>
      intro k e he
      rcases index_commit he with he | ⟨pre, p, post, e', rfl, rfl, hent, rfl⟩
      · exact h k e he
      · obtain ⟨r, hr, hrec⟩ := hc.recorded (List.mem_append_right _ List.mem_cons_self)
        refine ⟨hrec.key ▸ r.1.key.2, ?_⟩
        rw [hrec.entry] at hent
        have hx := Write.expiresAt_entry hent
        exact hx ▸ (ha r hr).2

end Inner

omit [Codec] in
theorem within_drop {now : Int64} {i : Inner} {dead : List String}
    (h : ∀ k ∈ dead, ∀ e, i.index[k]? = some e → e.isExpired now = true) : ReflTransGen (Drop now) i (i.drop dead) := by
  induction dead generalizing i with
  | nil => exact .refl
  | cons k dead ih =>
      have hk : ReflTransGen (Drop now) i (i.idxRemove k) := by
        cases he : i.index[k]? with
        | none =>
            have hr : i.idxRemove k = i := by simp [Inner.idxRemove, he]
            rw [hr]
        | some e => exact .single (.key he (h k List.mem_cons_self e he))
      refine hk.trans (ih fun k' hk' e he => ?_)
      rw [Inner.getElem?_idxRemove] at he
      split at he
      · exact absurd he (by simp)
      · exact h k' (List.mem_cons_of_mem k hk') e he

omit [Codec] in
theorem within_purgeExpired (now : Int64) : Within (Drop now) (purgeExpired now) := by
  intro i
  refine within_drop fun k hk e he => ?_
  obtain ⟨⟨d, k'⟩, hd, rfl⟩ := List.mem_map.mp hk
  have hm := List.mem_of_mem_take hd
  have hle : d ≤ now := by simpa using List.mem_takeWhile_imp hm
  obtain ⟨h0, e', he', rfl⟩ := (i.table.expiry_exact d k').mp
    (Std.ExtTreeSet.mem_toList.mp ((List.takeWhile_sublist _).mem hm))
  obtain rfl : e' = e := Option.some.inj (he'.symm.trans he)
  simp [Entry.isExpired, h0, hle]

omit [Codec] in
theorem within_purgeRounds (now : Int64) (rounds : Nat) : Within (Drop now) (purgeRounds now rounds) := by
  induction rounds with
  | zero => exact .pure _
  | succ rounds ih =>
      refine .bind (within_purgeExpired now) fun n => ?_
      split
      · exact ih
      · exact .pure _

omit [Codec] in
theorem within_purgeAllExpired (now : Int64) : Within (Drop now) (purgeAllExpired now) :=
  .bind .get fun _ => within_purgeRounds now _

section

variable {t now ts ex : Int64} {nonce : Draw} {key : String}

theorem within_putLocked (ht : now ≤ t) (hx : Settles t ex) (value : Value) (msgpack : Bool) :
    Within (Move t) (putLocked key value ex msgpack ts now nonce) := by
  apply within_of
  · intro i created i' h
    obtain ⟨rec, entry, raw, hb, -, -, rfl⟩ := putLocked_ok h
    obtain ⟨hk, enc, hr, -, hw, he⟩ := buildPut_ok hb
    have hd := Drop.mono_star ht (dropExpired_drops i key now)
    refine (Move.drops hd).tail (.commit (a := .single
      (.put ⟨key, hk⟩ ⟨raw, hr⟩ value.ty enc i.compression ts ex)) ?_ ?_)
    · have hkeys : (i.dropExpired key now).keys = i.keys := by rw [Drop.frame_star hd]
      rw [hkeys]
      exact .cons ⟨⟨nonce, hw⟩, rfl, rfl, he.symm⟩ .nil
    · intro r hr
      obtain rfl := List.mem_singleton.mp hr
      exact ⟨by simp [Role.Readable], hx⟩
  · intro i err i' h
    rcases putLocked_error h with rfl | rfl
    · exact .refl
    · exact Move.drops (Drop.mono_star ht (dropExpired_drops i key now))

theorem within_put {clock : Clock} (ht : clock.now 4 ≤ t) (hx : Settles t ex) (value : Value) (msgpack : Bool) :
    Within (Move t) (put key value ex msgpack clock nonce) :=
  .bind (.conformed ((within_live key _).moves (Int64.le_trans (clock.mono 2 4 (by omega)) ht)) value _) fun _ =>
    .bind .get fun _ => .bind (.refuse _) fun _ =>
      .bind .get fun _ => .bind .get fun _ => .bind (.refuse _) fun _ =>
        within_putLocked ht hx _ msgpack

theorem updateWith_moves {α : Type} {i : Inner} {clock : Clock} (ht : clock.now 5 ≤ t) (hi : i.Sound t)
    (f : Value → Result (Option Value × α)) : ReflTransGen (Move t) i (left (updateWith key f clock nonce) i) := by
  have hle (n : Nat) (hn : n ≤ 5) : clock.now n ≤ t := Int64.le_trans (clock.mono n 5 hn) ht
  have hl := live_eq key (clock.now 0) i
  have hd := Move.drops (Drop.mono_star (hle 0 (by omega)) (dropExpired_drops i key (clock.now 0)))
  -- what follows the look at the key keeps the deadline that was found
  cases hat : i.at? key (clock.now 0) with
  | none =>
      rw [hat] at hl
      have hrun : updateWith key f clock nonce i = .ok none (i.dropExpired key (clock.now 0)) :=
        bind_ok.mpr ⟨none, _, hl, pure_ok.mpr ⟨rfl, rfl⟩⟩
      rw [left_of_ok hrun]
      exact hd
  | some e =>
      rw [hat] at hl
      have hx : Settles t e.expiresAt := (hi key e (Option.filter_eq_some_iff.mp hat).1).2
      have hrest : Within (Move t) (updateAfter key f clock nonce e) := by
        refine .bind .get fun _ => .bind (.attempt _) fun _ =>
          .bind (.attempt _) fun r => ?_
        obtain ⟨new, out⟩ := r
        cases new with
        | none => exact .pure _
        | some new =>
            exact .bind (.conformed ((within_live key _).moves (hle 2 (by omega))) new _) fun _ =>
              .bind .get fun _ => .bind (.refuse _) fun _ =>
                .bind .get fun _ => .bind .get fun _ => .bind (.refuse _) fun _ =>
                  .bind (within_putLocked ht hx _ _) fun _ => .pure _
      have hleft : left (updateWith key f clock nonce) i = left (updateAfter key f clock nonce e) _ := left_bind_ok hl
      rw [hleft]
      exact hd.trans (hrest _)

theorem delete_moves {i : Inner} {clock : Clock} (ht : clock.now 0 ≤ t) (hi : i.Sound t) :
    ReflTransGen (Move t) i (left (delete key clock nonce) i) := by
  have hd := dropExpired_drops i key (clock.now 0)
  cases h : delete key clock nonce i with
  | ok found i' =>
      rw [left_of_ok h]
      obtain ⟨-, -, rfl⟩ | ⟨e, rec, -, hat, -, hb, rfl⟩ := delete_ok h
      · exact Move.drops (Drop.mono_star ht hd)
      · have hk := (hi key e (Option.filter_eq_some_iff.mp hat).1).1
        have henc : (Write.delete ⟨key, hk⟩ (clock.secs 1)).encode i.keys nonce Role.single.extra = .ok rec := by
          rw [Write.encode, Write.flags, Role.extra, UInt8.or_zero]
          exact hb
        refine (Move.drops (Drop.mono_star ht hd)).tail (.commit (a := .single (.delete ⟨key, hk⟩ (clock.secs 1))) ?_ ?_)
        · rw [Drop.frame_star hd]
          exact .cons ⟨⟨nonce, henc⟩, rfl, rfl, rfl⟩ .nil
        · intro r hr
          obtain rfl := List.mem_singleton.mp hr
          exact ⟨by simp [Role.Readable], settles_zero t⟩
  | error err i' =>
      rw [left_of_error h]
      rw [delete_error h]
      exact Move.drops (Drop.mono_star ht hd)

end

section

variable {t : Int64}

/-- The deadline an operation sets. -/
def BatchOp.deadline : BatchOp → Int64
  | put _ _ ex _ => ex
  | del _ => 0

theorem stage_recorded {now ts : Int64} {draws : Nat → Draw} {n : Nat} {ops : List BatchOp} {st st' : Staging}
    {i i' : Inner} (hi : i.Sound t) (hshadow : ∀ k : String, st.shadow[k]? = some true → validateKey k = .ok ())
    (hops : ∀ op ∈ ops, Settles t op.deadline)
    (hst : ∀ p ∈ st.staged, ∃ w, Recorded i.keys w .member p ∧ Settles t w.expiresAt)
    (h : stage now ts draws n ops st i = .ok st' i') :
    ∀ p ∈ st'.staged, ∃ w, Recorded i.keys w .member p ∧ Settles t w.expiresAt := by
  induction ops generalizing n st i with
  | nil =>
      obtain ⟨rfl, rfl⟩ := pure_ok.mp h
      exact hst
  | cons op ops ih =>
      have hd (key : String) := looked_drops i st.shadow key now
      have hfr (key : String) : (looked i st.shadow key now).keys = i.keys := by rw [Drop.frame_star (hd key)]
      have hins (key : String) (b : Bool) (hk : b = true → validateKey key = .ok ()) :
          ∀ k : String, (st.shadow.insert key b)[k]? = some true → validateKey k = .ok () := by
        intro k hs
        rw [Std.ExtTreeMap.getElem?_insert] at hs
        split at hs
        · rename_i hc
          rw [← Std.compare_eq_iff_eq.mp hc]
          exact hk (Option.some.inj hs)
        · exact hshadow k hs
      have hops' : ∀ op ∈ ops, Settles t op.deadline := fun op hop => hops op (List.mem_cons_of_mem _ hop)
      cases op with
      | put key value ex msgpack =>
          obtain ⟨rec, entry, raw, hb, h⟩ := stage_put_ok h
          obtain ⟨hk, enc, hr, -, hw, he⟩ := buildPut_ok hb
          have hex : Settles t ex := hops _ List.mem_cons_self
          have hall := ih (hi.drops (hd key)) (hins key true fun _ => hk) hops' (fun p hp => ?_) h
          · rwa [hfr] at hall
          · rw [hfr]
            rcases List.mem_append.mp hp with hp | hp
            · exact hst p hp
            · obtain rfl := List.mem_singleton.mp hp
              exact ⟨.put ⟨key, hk⟩ ⟨raw, hr⟩ value.ty enc i.compression ts ex, ⟨⟨_, hw⟩, rfl, rfl, he.symm⟩, hex⟩
      | del key =>
          obtain ⟨hs, rec, hb, h⟩ | ⟨-, h⟩ := stage_del_ok h
          · have hk : validateKey key = .ok () := by
              unfold seen at hs
              cases hsh : st.shadow[key]? with
              | some b =>
                  rw [hsh] at hs
                  exact hshadow key (hsh.trans (congrArg some hs))
              | none =>
                  rw [hsh] at hs
                  obtain ⟨e, hat⟩ := Option.isSome_iff_exists.mp hs
                  exact (hi key e (Option.filter_eq_some_iff.mp hat).1).1
            have hall := ih (hi.drops (hd key)) (hins key false (by simp)) hops' (fun p hp => ?_) h
            · rwa [hfr] at hall
            · rw [hfr]
              rcases List.mem_append.mp hp with hp | hp
              · exact hst p hp
              · obtain rfl := List.mem_singleton.mp hp
                exact ⟨.delete ⟨key, hk⟩ now, ⟨⟨_, hb⟩, rfl, rfl, rfl⟩, settles_zero t⟩
          · have hall := ih (hi.drops (hd key)) hshadow hops' (by rwa [hfr]) h
            rwa [hfr] at hall

theorem applyBatchWatched_moves {ops : List BatchOp} {beginSeq : Option Nat} {watched : Option (List WatchedKey)}
    {clock : Clock} {draws : Nat → Draw} {i : Inner} (ht : clock.now 2 ≤ t) (hi : i.Sound t)
    (hops : ∀ op ∈ ops, Settles t op.deadline)
    (hk : i.keys = none ∨ ∀ op ∈ ops, op.idle i (clock.now 0) = true) :
    ReflTransGen (Move t) i (left (applyBatchWatched ops beginSeq watched clock draws) i) := by
  have hw := within_stageBatch ops beginSeq watched clock draws
  cases h : applyBatchWatched ops beginSeq watched clock draws i with
  | ok u i' =>
      cases u
      rw [left_of_ok h]
      obtain ⟨recs, i₁, hs, hi'⟩ := applyBatchWatched_ok h
      have hd := Drop.mono_star ht (hw.ok hs)
      obtain ⟨-, rfl⟩ | ⟨hne, -, rfl⟩ := hi'
      · exact Move.drops hd
      · obtain ⟨ops', j, st, hc, hst, rfl⟩ := stageBatch_ok hs
        have hstaged : st.staged ≠ [] := fun hn => hne (commitLast_eq_nil.mpr hn)
        have hj := (within_checkBatch ops beginSeq watched clock).ok hc
        have hkeys : j.keys = i.keys := by rw [Drop.frame_star hj]
        have hclear : i.keys = none := by
          rcases hk with hk | hidle
          · exact hk
          · exact absurd ((stage_eq_nil hst).mpr ((checkBatch_idle hc).mpr hidle)) hstaged
        have hops' : ∀ op ∈ ops', Settles t op.deadline := by
          intro op hop
          have hm : op.deadline ∈ ops'.map BatchOp.deadline := List.mem_map_of_mem hop
          rw [checkBatch_map (f := BatchOp.deadline) (fun _ _ _ _ _ => rfl) hc] at hm
          obtain ⟨op₀, hop₀, he⟩ := List.mem_map.mp hm
          exact he ▸ hops op₀ hop₀
        have hrec := stage_recorded (hi.drops hj) (by simp) hops' (by simp) hst
        rw [hkeys] at hrec
        obtain ⟨init, last, hcom, hset⟩ := commits_commitLast hstaged hrec
        refine (Move.drops hd).tail (.commit (a := .batch init last) ?_ fun r hr => ⟨?_, ?_⟩)
        · rw [Drop.frame_star hd]
          exact hcom
        · rw [Drop.frame_star hd]
          exact fun _ => hclear
        · exact hset r hr
  | error err i' =>
      rw [left_of_error h]
      rw [applyBatchWatched_error h]
      exact Move.drops (Drop.mono_star ht (hw i))

end

end

end KivaDb

namespace KivaDb

open Lib.LittleEndian Lib.Utf8 Lib.Flags Lib.Fallible Format Crypt Log Relation

variable [External]

structure EngineOptions where
  keys : Option Keys
  requireEncryption : Bool
  compression : Compression
  maxMemory : Nat
  maxVectors : Nat

/-- Whether a snapshot may stand for the first `dataLen` bytes of the file. With
encryption required, one written in clear (or listing records in clear) is not
trusted. -/
def Hint.HintData.usable (hd : HintData) (opts : EngineOptions) (fileId : UInt64) (fileLen : Nat) : Bool :=
  (!opts.requireEncryption || (hd.encrypted && hd.entries.all fun p => hasFlag p.2.flags flagEncrypted)) &&
    decide (hd.fileId = fileId) && decide (hd.dataLen ≤ fileLen) && decide (fileHeaderLen ≤ hd.dataLen)

/-- Lists an entry of a snapshot under the next version. -/
def listEntry (s : Index × Nat) (p : String × Entry) : Index × Nat :=
  (s.1.insert p.1 { p.2 with version := s.2 + 1 }, s.2 + 1)

/-- What a snapshot gives: the index, the sequence number, and where the log is
to be replayed from. -/
def loadHint (opts : EngineOptions) (fileId : UInt64) (fileLen : Nat) (hint : Option Bytes) :
    (Index × Nat) × Nat :=
  match hint.map (Hint.readHint · opts.keys) with
  | some (.ok hd) =>
      if hd.usable opts fileId fileLen then (hd.entries.foldl listEntry (∅, 0), hd.dataLen)
      else ((∅, 0), fileHeaderLen)
  | _ => ((∅, 0), fileHeaderLen)

variable [Chrono] [Vectors]

/-- An engine on `file`, before anything is known of its secondary indexes. -/
def Inner.opened (opts : EngineOptions) (file : Bytes) (fileId : UInt64) (format : UInt32) (index : Index) (seq : Nat) :
    Inner where
  file := file
  fileId := fileId
  format := format
  table := Table.ofIndex index
  seq := seq
  compression := opts.compression
  sec := []
  vecs := []
  schemas := []
  maxMemory := opts.maxMemory
  maxVectors := opts.maxVectors
  keys := opts.keys
  activeTxns := 0
  tombVersions := ∅
  resetSeq := 0
  compacting := false
  closed := false
  emitted := []

/-- A missing or wrong key shows when the file is opened, not at the first
read. -/
def Inner.checkKeys (i : Inner) : Result Unit :=
  match i.index.toList.find? fun p => hasFlag p.2.flags flagEncrypted with
  | none => .ok ()
  | some (k, e) =>
      match i.readAt e.offset e.recLen with
      | none => .error (.io "failed to fill whole buffer")
      | some rec =>
          match openRecord i.keys rec with
          | .ok _ => .ok ()
          | .error .tampered => .ok ()
          | .error err => .error (err.intoError s!"this workspace (record '{k}')")

/-- The number and the format of a data file. -/
def readFileHeader (file : Bytes) : Result (UInt64 × UInt32) :=
  if file.length < fileHeaderLen then .error (.format "file header is truncated")
  else
    match parseFileHeader (file.take fileHeaderLen) with
    | .ok h => .ok h
    | .error why => .error (.format why)

/-- Opens the data file, with the snapshot beside it if there is one; the index
holds what had not expired at `now`. What the file holds past its last whole
record or batch is cut. -/
def openFile (opts : EngineOptions) (file : Bytes) (hint : Option Bytes) (newId : Except String UInt64) (now : Int64) :
    Result Inner :=
  if file = [] then
    match newId with
    | .error why => .error (randomFailed why)
    | .ok fileId => .ok (Inner.opened opts (fileHeader fileId formatV1) fileId formatV1 ∅ 0)
  else do
    let h ← readFileHeader file
    let loaded := loadHint opts h.1 file.length hint
    let o ← scanLog file loaded.2 loaded.1.1 loaded.1.2 opts.keys opts.requireEncryption
    let i := Inner.opened opts (file.take o.stop) h.1 h.2 (o.index.filter fun _ e => ¬ e.isExpired now) o.seq
    i.checkKeys
    .ok i

/-- An engine at work, and the snapshot beside its data file. -/
structure Session where
  inner : Inner
  hint : Option Bytes

namespace Session

/-- Writes the snapshot; when that fails, the one before stays. -/
def writeHint (s : Session) (nonce : Draw) : Session :=
  match Hint.writeHint s.inner.fileId s.inner.file.length s.inner.index s.inner.compression s.inner.keys nonce with
  | .ok data => { s with hint := some data }
  | .error _ => s

/-- Writes the index snapshot now. -/
def snapshot (s : Session) (nonce : Draw) : Session := if s.inner.closed then s else s.writeHint nonce

/-- Writes the index snapshot, without the keys whose TTL has elapsed. -/
def close (s : Session) (now : Int64) (nonce : Draw) : Session :=
  if s.inner.closed then s
  else
    let s := { s with inner := left (purgeAllExpired now) s.inner }.writeHint nonce
    { s with inner := { s.inner with closed := true } }

/-- The snapshot goes with the keys. -/
def reset (s : Session) (fileId : Except String UInt64) : Session :=
  match KivaDb.reset fileId s.inner with
  | .ok _ i => { inner := i, hint := none }
  | .error _ i => { s with inner := i }

end Session

/-- What is asked of an engine. -/
inductive Call
  | live (key : String)
  | put (key : String) (value : Value) (expiresAt : Int64) (msgpack : Bool) (nonce : Draw)
  | updateWith (key : String) (f : Value → Result (Option Value × Unit)) (nonce : Draw)
  | delete (key : String) (nonce : Draw)
  | applyBatch (ops : List BatchOp) (beginSeq : Option Nat) (watched : Option (List WatchedKey)) (draws : Nat → Draw)
  | purgeExpired
  | snapshot (nonce : Draw)
  | reset (fileId : Except String UInt64)

variable [Codec]

namespace Session

/-- One call. A call that fails may still have dropped keys. -/
def step (s : Session) (clock : Clock) : Call → Session
  | .live key => { s with inner := left (KivaDb.live key (clock.now 0)) s.inner }
  | .put key value expiresAt msgpack nonce =>
      { s with inner := left (KivaDb.put key value expiresAt msgpack clock nonce) s.inner }
  | .updateWith key f nonce => { s with inner := left (KivaDb.updateWith key f clock nonce) s.inner }
  | .delete key nonce => { s with inner := left (KivaDb.delete key clock nonce) s.inner }
  | .applyBatch ops beginSeq watched draws =>
      { s with inner := left (applyBatchWatched ops beginSeq watched clock draws) s.inner }
  | .purgeExpired => { s with inner := left (KivaDb.purgeExpired (clock.now 0)) s.inner }
  | .snapshot nonce => s.snapshot nonce
  | .reset fileId => s.reset fileId

/-- Calls one after the other, each with its clock. -/
def run (s : Session) (calls : List (Clock × Call)) : Session := calls.foldl (fun s p => s.step p.1 p.2) s

end Session

end KivaDb
