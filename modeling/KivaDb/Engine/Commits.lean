import KivaDb.Engine.Drops
import KivaDb.Recovery

namespace KivaDb

open Lib.LittleEndian Lib.Utf8 Lib.Flags Lib.Fallible Format Crypt Log Relation

section

variable [External] [Chrono] [Codec] [Vectors]

/-- What a put that can be encoded is to the log. -/
theorem buildPut_ok {i : Inner} {key : String} {value : Value} {ex ts : Int64} {msgpack : Bool} {extra : UInt8}
    {nonce : Draw} {rec raw : Bytes} {entry : Entry}
    (h : buildPut i key value ex msgpack ts extra nonce = .ok (rec, entry, raw)) :
    ∃ (hk : validateKey key = .ok ()) (enc : DocEnc) (hr : raw.length ≤ maxValueLen),
      Codec.encodeStored value (msgpack && value.ty.isDoc) = .ok (raw, enc) ∧
      (Write.put ⟨key, hk⟩ ⟨raw, hr⟩ value.ty enc i.compression ts ex).encode i.keys nonce extra = .ok rec ∧
      (Write.put ⟨key, hk⟩ ⟨raw, hr⟩ value.ty enc i.compression ts ex).entry i.keys extra 0 = some entry := by
  obtain ⟨_, hk, h⟩ := except_bind_ok.mp h
  obtain ⟨⟨raw', enc⟩, he, h⟩ := except_bind_ok.mp h
  dsimp only at h
  split at h
  · simp at h
  · rename_i hr
    obtain ⟨rec', hw, h⟩ := except_bind_ok.mp h
    simp only [Except.ok.injEq, Prod.mk.injEq] at h
    obtain ⟨rfl, rfl, rfl⟩ := h
    have henc : (Write.put ⟨key, hk⟩ ⟨raw', Nat.not_lt.mp hr⟩ value.ty enc i.compression ts ex).encode i.keys nonce
        extra = .ok rec' := hw
    refine ⟨hk, enc, Nat.not_lt.mp hr, he, henc, ?_⟩
    rw [Write.header_encode henc]
    rfl

end

section

variable [External]

theorem entry_commit (keys : Option Keys) (w : Write) (pos : Nat) :
    w.entry keys Role.commit.extra pos =
      (w.entry keys Role.member.extra pos).map fun e => { e with flags := e.flags ||| flagTxnCommit } := by
  have hor (a b c d : UInt8) : a ||| (b ||| c) ||| d = a ||| b ||| d ||| c := by
    rw [UInt8.or_assoc a, UInt8.or_assoc b, UInt8.or_comm c d, ← UInt8.or_assoc b, ← UInt8.or_assoc a,
      ← UInt8.or_assoc a]
  cases w with
  | put key raw ty enc algo ts ex =>
      cases keys with
      | none => simp [Write.entry, sealFlags, Role.extra, hor]
      | some k =>
          simp only [Write.entry, sealFlags, Role.extra, hor, Option.isSome_some, if_true, Option.map_some]
          rw [UInt8.or_assoc _ flagTxnCommit, UInt8.or_comm flagTxnCommit, ← UInt8.or_assoc]
  | delete key ts => rfl

/-- The bytes of the value that is written. -/
def Write.raw : Write → Option Bytes
  | put _ raw _ _ _ _ _ => some raw.1
  | delete _ _ => none

variable [Chrono]

namespace Staged

/-- The entry the key gets, none when it is deleted. -/
def entry : Staged → Option Entry
  | put _ e _ _ _ _ => some e
  | del _ => none

def raw : Staged → Option Bytes
  | put _ _ raw _ _ _ => some raw
  | del _ => none

/-- The value as its record holds it, before encryption. -/
def stored (algo : Compression) : Staged → Bytes
  | put _ _ raw _ _ _ => (Compress.pack raw algo).1
  | del _ => []

end Staged

/-- `p` stands for the write `w` in its role: its record as it is appended, and
the entry that is indexed for it. -/
structure Recorded (keys : Option Keys) (w : Write) (role : Role) (p : Staged × Bytes) : Prop where
  written : Written keys w role p.2
  key : p.1.key = w.key.1
  raw : p.1.raw = w.raw
  entry : p.1.entry = w.entry keys role.extra 0

variable {keys : Option Keys}

/-- Stamping the record of a member and its entry makes a commit record. -/
theorem Recorded.commit {w : Write} {p : Staged × Bytes} (h : Recorded keys w .member p) :
    Recorded keys w .commit (p.1.markCommit, stampCommit p.2) := by
  obtain ⟨s, rec⟩ := p
  obtain ⟨⟨nonce, hw⟩, hk, hs, he⟩ := h
  refine ⟨⟨nonce, rec, hw, rfl⟩, ?_, ?_, ?_⟩
  · cases s <;> exact hk
  · cases s <;> exact hs
  · rw [entry_commit, ← he]
    cases s <;> rfl

theorem commitLast_concat (ps : List (Staged × Bytes)) (p : Staged × Bytes) :
    commitLast (ps ++ [p]) = ps ++ [(p.1.markCommit, stampCommit p.2)] := by
  induction ps with
  | nil => rfl
  | cons q ps ih =>
      cases ps with
      | nil => rfl
      | cons r ps => exact congrArg (q :: ·) ih

theorem commitLast_eq_nil {ps : List (Staged × Bytes)} : commitLast ps = [] ↔ ps = [] := by
  cases ps with
  | nil => simp [commitLast]
  | cons p ps =>
      cases ps with
      | nil => simp [commitLast]
      | cons q ps => simp [commitLast]

/-- The records of one append. -/
def Commits (keys : Option Keys) (recs : List (Staged × Bytes)) (a : Append) : Prop :=
  List.Forall₂ (fun p r => Recorded keys r.1 r.2 p) recs a.records

theorem forall₂_members {P : Write → Prop} {ps : List (Staged × Bytes)}
    (h : ∀ p ∈ ps, ∃ w, Recorded keys w .member p ∧ P w) :
    ∃ ws : List Write, List.Forall₂ (fun p r => Recorded keys r.1 r.2 p) ps (ws.map (·, Role.member)) ∧
      ∀ w ∈ ws, P w := by
  induction ps with
  | nil => exact ⟨[], .nil, by simp⟩
  | cons p ps ih =>
      obtain ⟨w, hw, hP⟩ := h p List.mem_cons_self
      obtain ⟨ws, hws, hPs⟩ := ih fun q hq => h q (List.mem_cons_of_mem p hq)
      exact ⟨w :: ws, .cons hw hws, List.forall_mem_cons.mpr ⟨hP, hPs⟩⟩

/-- Members whose last one is stamped are a batch. -/
theorem commits_commitLast {P : Write → Prop} {ps : List (Staged × Bytes)} (hne : ps ≠ [])
    (h : ∀ p ∈ ps, ∃ w, Recorded keys w .member p ∧ P w) :
    ∃ init last, Commits keys (commitLast ps) (.batch init last) ∧
      ∀ r ∈ (Append.batch init last).records, P r.1 := by
  obtain ⟨qs, q, rfl⟩ := List.eq_nil_or_concat ps |>.resolve_left hne
  rw [List.concat_eq_append] at h ⊢
  obtain ⟨ws, hws, hPs⟩ := forall₂_members fun p hp => h p (List.mem_append_left _ hp)
  obtain ⟨w, hw, hP⟩ := h q (List.mem_append_right _ List.mem_cons_self)
  refine ⟨ws, w, ?_, fun r hr => ?_⟩
  · rw [commitLast_concat]
    exact List.rel_append hws (.cons hw.commit .nil)
  · rcases List.mem_append.mp hr with hr | hr
    · obtain ⟨v, hv, rfl⟩ := List.mem_map.mp hr
      exact hPs v hv
    · rw [List.mem_singleton.mp hr]
      exact hP

end

section

variable [External] [Chrono] [Vectors] {i i' : Inner}

theorem attempt_ok {α : Type} {r : Result α} {a : α} : attempt r i = .ok a i' ↔ r = .ok a ∧ i = i' := by
  cases r with
  | ok b => simp [attempt]
  | error e => simp [attempt]

theorem attempt_error {α : Type} {r : Result α} {err : KivaError} :
    attempt r i = .error err i' ↔ r = .error err ∧ i = i' := by
  cases r with
  | ok b => simp [attempt]
  | error e => simp [attempt]

theorem refuse_ok {r : Result Unit} {u : Unit} : refuse r i = .ok u i' ↔ r = .ok () ∧ i = i' := by
  cases r with
  | ok b => simp [refuse]
  | error e => simp [refuse]

/-- Whether `key` exists for the operations of a batch after those of `shadow`. -/
def seen (i : Inner) (shadow : Std.ExtTreeMap String Bool compare) (key : String) (now : Int64) : Bool :=
  (shadow[key]?).getD (i.at? key now).isSome

/-- The state after looking for `key`. -/
def looked (i : Inner) (shadow : Std.ExtTreeMap String Bool compare) (key : String) (now : Int64) : Inner :=
  if shadow[key]?.isSome then i else i.dropExpired key now

theorem existsNow_eq (i : Inner) (shadow : Std.ExtTreeMap String Bool compare) (key : String) (now : Int64) :
    existsNow shadow key now i = .ok (seen i shadow key now) (looked i shadow key now) := by
  unfold existsNow seen looked
  cases shadow[key]? with
  | none => rfl
  | some b => rfl

theorem looked_drops (i : Inner) (shadow : Std.ExtTreeMap String Bool compare) (key : String) (now : Int64) :
    ReflTransGen (Drop now) i (looked i shadow key now) := by
  unfold looked
  split
  · exact .refl
  · exact dropExpired_drops i key now

theorem append_eq {i : Inner} (hc : i.closed = false) (buf : Bytes) :
    append buf i = .ok (i.raiseFormat (formatNeeded buf)).file.length (i.extend buf) := by
  have h : append buf i = (if i.closed then throw (.other "database is closed") else do
    set (i.extend buf)
    return (i.raiseFormat (formatNeeded buf)).file.length : M Nat) i := rfl
  rw [h, hc]
  rfl

theorem append_ok {buf : Bytes} {i i' : Inner} {base : Nat} (h : append buf i = .ok base i') :
    i.closed = false ∧ i' = i.extend buf ∧ base = (i.raiseFormat (formatNeeded buf)).file.length := by
  obtain ⟨j, _, hg, h⟩ := bind_ok.mp h
  obtain ⟨rfl, rfl⟩ := get_ok.mp hg
  split at h
  · simp at h
  · rename_i hc
    obtain ⟨_, _, hs, h⟩ := bind_ok.mp h
    obtain rfl := set_ok.mp hs
    obtain ⟨rfl, rfl⟩ := pure_ok.mp h
    exact ⟨by simpa using hc, rfl, rfl⟩

theorem append_error {buf : Bytes} {err : KivaError} (h : append buf i = .error err i') : i' = i := by
  rcases bind_error.mp h with h | ⟨j, _, hg, h⟩
  · simp at h
  · obtain ⟨rfl, rfl⟩ := get_ok.mp hg
    split at h
    · exact (throw_error.mp h).2.symm
    · rcases bind_error.mp h with h | ⟨_, _, -, h⟩
      · simp at h
      · simp at h

variable [Codec] {now ts : Int64} {draws : Nat → Draw} {n : Nat} {ops : List BatchOp} {st st' : Staging}

theorem stage_put_ok {key : String} {value : Value} {ex : Int64} {msgpack : Bool}
    (h : stage now ts draws n (.put key value ex msgpack :: ops) st i = .ok st' i') :
    ∃ rec entry raw, buildPut i key value ex msgpack ts flagTxn (draws n) = .ok (rec, entry, raw) ∧
      stage now ts draws (n + 1) ops
        { staged := st.staged ++ [(.put key entry raw (DocView.of value) entry.ty (!seen i st.shadow key now), rec)]
          shadow := st.shadow.insert key true
          growth := st.growth + (looked i st.shadow key now).vectorGrowth key (DocView.of value) }
        (looked i st.shadow key now) = .ok st' i' := by
  obtain ⟨j, _, hg, h⟩ := bind_ok.mp h
  obtain ⟨rfl, rfl⟩ := get_ok.mp hg
  obtain ⟨⟨rec, entry, raw⟩, _, ha, h⟩ := bind_ok.mp h
  obtain ⟨hb, rfl⟩ := attempt_ok.mp ha
  obtain ⟨found, j, he, h⟩ := bind_ok.mp h
  rw [existsNow_eq] at he
  obtain ⟨rfl, rfl⟩ := EStateM.Result.ok.inj he
  obtain ⟨j, _, hg, h⟩ := bind_ok.mp h
  obtain ⟨rfl, rfl⟩ := get_ok.mp hg
  exact ⟨rec, entry, raw, hb, h⟩

theorem stage_del_ok {key : String} (h : stage now ts draws n (.del key :: ops) st i = .ok st' i') :
    (seen i st.shadow key now = true ∧
      ∃ rec, encodeRecord i.keys (draws n) key [] 0 (flagTombstone ||| flagTxn) now 0 = .ok rec ∧
        stage now ts draws (n + 1) ops
          { st with staged := st.staged ++ [(.del key, rec)], shadow := st.shadow.insert key false }
          (looked i st.shadow key now) = .ok st' i') ∨
      seen i st.shadow key now = false ∧
        stage now ts draws (n + 1) ops st (looked i st.shadow key now) = .ok st' i' := by
  obtain ⟨found, j, he, h⟩ := bind_ok.mp h
  rw [existsNow_eq] at he
  obtain ⟨rfl, rfl⟩ := EStateM.Result.ok.inj he
  cases hs : seen i st.shadow key now with
  | false =>
      rw [hs] at h
      exact .inr ⟨rfl, h⟩
  | true =>
      rw [hs] at h
      obtain ⟨j, _, hg, h⟩ := bind_ok.mp h
      obtain ⟨rfl, rfl⟩ := get_ok.mp hg
      obtain ⟨rec, _, ha, h⟩ := bind_ok.mp h
      obtain ⟨hb, rfl⟩ := attempt_ok.mp ha
      have hkeys : (looked i st.shadow key now).keys = i.keys := by
        rw [Drop.frame_star (looked_drops i st.shadow key now)]
      rw [hkeys] at hb
      exact .inl ⟨rfl, rec, hb, h⟩

/-- A record a batch has staged: it is encoded, not yet marked as a commit
point. -/
def Encoded (keys : Option Keys) (algo : Compression) (p : Staged × Bytes) : Prop :=
  ∃ nonce ty flags ts ex, encodeRecord keys nonce p.1.key (p.1.stored algo) ty flags ts ex = .ok p.2 ∧
    hasFlag flags flagTxnCommit = false

theorem stage_encoded (hst : ∀ p ∈ st.staged, Encoded i.keys i.compression p)
    (h : stage now ts draws n ops st i = .ok st' i') : ∀ p ∈ st'.staged, Encoded i.keys i.compression p := by
  induction ops generalizing n st i with
  | nil =>
      obtain ⟨rfl, rfl⟩ := pure_ok.mp h
      exact hst
  | cons op ops ih =>
      have hfr (key : String) : (looked i st.shadow key now).keys = i.keys ∧
          (looked i st.shadow key now).compression = i.compression := by
        rw [Drop.frame_star (looked_drops i st.shadow key now)]
        exact ⟨rfl, rfl⟩
      cases op with
      | put key value ex msgpack =>
          obtain ⟨rec, entry, raw, hb, h⟩ := stage_put_ok h
          obtain ⟨hk, enc, hr, -, henc, -⟩ := buildPut_ok hb
          rw [← (hfr key).1, ← (hfr key).2]
          refine ih (fun p hp => ?_) h
          rw [(hfr key).1, (hfr key).2]
          rcases List.mem_append.mp hp with hp | hp
          · exact hst p hp
          · rw [List.mem_singleton.mp hp]
            refine ⟨_, _, _, _, _, henc, ?_⟩
            exact (Write.hasFlag_flags Write.foreign_txnCommit (by decide) _ _).trans (by decide)
      | del key =>
          obtain ⟨-, rec, hb, h⟩ | ⟨-, h⟩ := stage_del_ok h
          · rw [← (hfr key).1, ← (hfr key).2]
            refine ih (fun p hp => ?_) h
            rw [(hfr key).1, (hfr key).2]
            rcases List.mem_append.mp hp with hp | hp
            · exact hst p hp
            · rw [List.mem_singleton.mp hp]
              exact ⟨_, _, _, _, _, hb, by decide⟩
          · rw [← (hfr key).1, ← (hfr key).2]
            refine ih (fun p hp => ?_) h
            rw [(hfr key).1, (hfr key).2]
            exact hst p hp

/-- The records of `recs` are appended and applied. -/
def Inner.commit (i : Inner) (recs : List (Staged × Bytes)) : Inner :=
  (i.extend (recs.flatMap Prod.snd)).applyAllStaged
    (i.raiseFormat (formatNeeded (recs.flatMap Prod.snd))).file.length recs

theorem applyBatchWatched_ok {ops : List BatchOp} {beginSeq : Option Nat} {watched : Option (List WatchedKey)}
    {clock : Clock} {draws : Nat → Draw} {i i' : Inner}
    (h : applyBatchWatched ops beginSeq watched clock draws i = .ok () i') :
    ∃ recs i₁, stageBatch ops beginSeq watched clock draws i = .ok recs i₁ ∧
      (recs = [] ∧ i' = i₁ ∨ recs ≠ [] ∧ i₁.closed = false ∧ i' = i₁.commit recs) := by
  obtain ⟨recs, i₁, hs, h⟩ := bind_ok.mp h
  refine ⟨recs, i₁, hs, ?_⟩
  split at h
  · rename_i he
    obtain ⟨-, rfl⟩ := pure_ok.mp h
    exact .inl ⟨List.isEmpty_iff.mp he, rfl⟩
  · rename_i he
    obtain ⟨base, j, ha, h⟩ := bind_ok.mp h
    obtain ⟨hc, rfl, rfl⟩ := append_ok ha
    exact .inr ⟨fun hn => he (by simp [hn]), hc, (modify_ok.mp h).symm⟩

/-- A batch that fails leaves what its checks and its staging made of the
state. -/
theorem applyBatchWatched_error {ops : List BatchOp} {beginSeq : Option Nat} {watched : Option (List WatchedKey)}
    {clock : Clock} {draws : Nat → Draw} {i i' : Inner} {err : KivaError}
    (h : applyBatchWatched ops beginSeq watched clock draws i = .error err i') :
    i' = left (stageBatch ops beginSeq watched clock draws) i := by
  rcases bind_error.mp h with h | ⟨recs, i₁, hs, h⟩
  · exact (left_of_error h).symm
  · rw [left_of_ok hs]
    split at h
    · exact (pure_error.mp h).elim
    · rcases bind_error.mp h with h | ⟨_, _, -, h⟩
      · exact append_error h
      · exact (modify_error.mp h).elim

theorem stageBatch_ok {ops : List BatchOp} {beginSeq : Option Nat} {watched : Option (List WatchedKey)}
    {clock : Clock} {draws : Nat → Draw} {i i' : Inner} {recs : List (Staged × Bytes)}
    (h : stageBatch ops beginSeq watched clock draws i = .ok recs i') :
    ∃ ops' i₁ st, checkBatch ops beginSeq watched clock i = .ok ops' i₁ ∧
      stage (clock.now 0) (clock.secs 0) draws 0 ops' ⟨[], ∅, 0⟩ i₁ = .ok st i' ∧ recs = commitLast st.staged := by
  obtain ⟨ops', i₁, hc, h⟩ := bind_ok.mp h
  obtain ⟨st, i₂, hs, h⟩ := bind_ok.mp h
  split at h
  · rename_i he
    obtain ⟨rfl, rfl⟩ := pure_ok.mp h
    exact ⟨ops', i₁, st, hc, hs, by rw [List.isEmpty_iff.mp he]; rfl⟩
  · obtain ⟨j, _, hg, h⟩ := bind_ok.mp h
    obtain ⟨rfl, rfl⟩ := get_ok.mp hg
    obtain ⟨_, _, hr, h⟩ := bind_ok.mp h
    obtain ⟨-, rfl⟩ := refuse_ok.mp hr
    obtain ⟨rfl, rfl⟩ := pure_ok.mp h
    exact ⟨ops', i₁, st, hc, hs, rfl⟩

end

section

variable [External] [Chrono] [Vectors] [Codec]

/-- What listeners are told of a staged operation. -/
def Staged.op : Staged → Op
  | put key e raw _ ty created => .set key ty raw e.docEnc e.timestamp e.expiresAt created
  | del key => .del key

namespace Inner

/-- Applying a staged operation leaves the file and the settings as they are. -/
theorem applyStaged_frame (i : Inner) (offset : Nat) (s : Staged) :
    i.applyStaged offset s =
      { i with
        table := (i.applyStaged offset s).table
        sec := (i.applyStaged offset s).sec
        vecs := (i.applyStaged offset s).vecs
        seq := i.seq + 1
        tombVersions := (i.applyStaged offset s).tombVersions
        emitted := i.emitted ++ [s.op] } := by
  cases s with
  | put key e raw doc ty created => rfl
  | del key =>
      simp only [applyStaged]
      rw [idxRemove_frame]
      simp only
      split <;> rfl

theorem getElem?_applyStaged (i : Inner) (offset : Nat) (s : Staged) (k : String) :
    (i.applyStaged offset s).index[k]? =
      if s.key = k then s.entry.map fun e => { e with offset, version := i.seq + 1 } else i.index[k]? := by
  cases s with
  | put key e raw doc ty created => exact Table.getElem?_insert i.table.index key k _
  | del key =>
      have h := getElem?_idxRemove { i with seq := i.seq + 1 } key k
      simp only [applyStaged]
      split
      · exact h
      · exact h

theorem getElem?_applyStaged_self (i : Inner) (offset : Nat) (s : Staged) :
    (i.applyStaged offset s).index[s.key]? = s.entry.map fun e => { e with offset, version := i.seq + 1 } := by
  rw [getElem?_applyStaged, if_pos rfl]

theorem applyAllStaged_append (i : Inner) (offset : Nat) (ps qs : List (Staged × Bytes)) :
    i.applyAllStaged offset (ps ++ qs) =
      (i.applyAllStaged offset ps).applyAllStaged (offset + (ps.flatMap Prod.snd).length) qs := by
  induction ps generalizing i offset with
  | nil => rfl
  | cons p ps ih =>
      simp only [List.cons_append, applyAllStaged, ih, List.flatMap_cons, List.length_append, Nat.add_assoc]

theorem applyAllStaged_frame (i : Inner) (offset : Nat) (ps : List (Staged × Bytes)) :
    i.applyAllStaged offset ps =
      { i with
        table := (i.applyAllStaged offset ps).table
        sec := (i.applyAllStaged offset ps).sec
        vecs := (i.applyAllStaged offset ps).vecs
        seq := i.seq + ps.length
        tombVersions := (i.applyAllStaged offset ps).tombVersions
        emitted := i.emitted ++ ps.map (·.1.op) } := by
  induction ps generalizing i offset with
  | nil => simp [applyAllStaged]
  | cons p ps ih =>
      simp only [applyAllStaged]
      rw [ih, applyStaged_frame]
      simp only [List.length_cons, List.map_cons, List.append_assoc, List.singleton_append, Nat.add_assoc,
        Nat.add_comm 1]

/-- A commit leaves the settings as they are, and tells listeners of each of its
operations. -/
theorem commit_frame (i : Inner) (recs : List (Staged × Bytes)) :
    i.commit recs =
      { i with
        file := (i.commit recs).file
        format := (i.commit recs).format
        table := (i.commit recs).table
        sec := (i.commit recs).sec
        vecs := (i.commit recs).vecs
        seq := i.seq + recs.length
        tombVersions := (i.commit recs).tombVersions
        emitted := i.emitted ++ recs.map (·.1.op) } := by
  rw [commit, applyAllStaged_frame]
  simp only [extend, raiseFormat]
  split <;> rfl

end Inner

section

variable {key : String} {now ts ex : Int64} {nonce : Draw} {i i' : Inner} {rec : Bytes}

omit [Codec] in
theorem closed_dropExpired (hc : i.closed = false) (key : String) (now : Int64) :
    (i.dropExpired key now).closed = false := by
  rw [Drop.frame_star (dropExpired_drops i key now)]
  exact hc

/-- A put appends its record and applies it. -/
theorem putLocked_eq {value : Value} {msgpack : Bool} {raw : Bytes} {entry : Entry}
    (hb : buildPut i key value ex msgpack ts 0 nonce = .ok (rec, entry, raw)) (hc : i.closed = false) :
    putLocked key value ex msgpack ts now nonce i = .ok (i.at? key now).isNone
      ((i.dropExpired key now).commit
        [(.put key entry raw (DocView.of value) value.ty (i.at? key now).isNone, rec)]) := by
  obtain ⟨hk, enc, hr, -, -, he⟩ := buildPut_ok hb
  obtain rfl := Option.some.inj he
  unfold putLocked
  simp only [bind, EStateM.bind, get, getThe, MonadStateOf.get, EStateM.get, hb, attempt, pure, EStateM.pure, live_eq,
    append_eq (closed_dropExpired hc key now)]
  simp [Inner.commit, Inner.applyAllStaged, modify, modifyGet, MonadStateOf.modifyGet, EStateM.modifyGet]
  rfl

theorem putLocked_ok {value : Value} {msgpack created : Bool}
    (h : putLocked key value ex msgpack ts now nonce i = .ok created i') :
    ∃ rec entry raw, buildPut i key value ex msgpack ts 0 nonce = .ok (rec, entry, raw) ∧ i.closed = false ∧
      created = (i.at? key now).isNone ∧
      i' = (i.dropExpired key now).commit [(.put key entry raw (DocView.of value) value.ty created, rec)] := by
  have hput := h
  obtain ⟨j, _, hg, h⟩ := bind_ok.mp h
  obtain ⟨rfl, rfl⟩ := get_ok.mp hg
  obtain ⟨⟨rec, entry, raw⟩, _, ha, h⟩ := bind_ok.mp h
  obtain ⟨hb, rfl⟩ := attempt_ok.mp ha
  obtain ⟨e, j, hl, h⟩ := bind_ok.mp h
  obtain ⟨rfl, rfl⟩ := EStateM.Result.ok.inj ((live_eq key now i).symm.trans hl)
  obtain ⟨base, j, hap, -⟩ := bind_ok.mp h
  have hc : i.closed = false := by
    have hcl := (append_ok hap).1
    rw [Drop.frame_star (dropExpired_drops i key now)] at hcl
    exact hcl
  obtain ⟨rfl, rfl⟩ := EStateM.Result.ok.inj ((putLocked_eq hb hc).symm.trans hput)
  exact ⟨rec, entry, raw, hb, hc, rfl, rfl⟩

/-- A put that fails leaves the key as it was, or drops it when its TTL has
elapsed. -/
theorem putLocked_error {value : Value} {msgpack : Bool} {err : KivaError}
    (h : putLocked key value ex msgpack ts now nonce i = .error err i') : i' = i ∨ i' = i.dropExpired key now := by
  rcases bind_error.mp h with h | ⟨j, _, hg, h⟩
  · simp at h
  · obtain ⟨rfl, rfl⟩ := get_ok.mp hg
    rcases bind_error.mp h with h | ⟨r, _, ha, h⟩
    · exact .inl (attempt_error.mp h).2.symm
    · obtain ⟨-, rfl⟩ := attempt_ok.mp ha
      rcases bind_error.mp h with h | ⟨e, j, hl, h⟩
      · simp [live_eq] at h
      · obtain ⟨rfl, rfl⟩ := EStateM.Result.ok.inj ((live_eq key now i).symm.trans hl)
        rcases bind_error.mp h with h | ⟨base, j', -, h⟩
        · exact .inr (append_error h)
        · rcases bind_error.mp h with h | ⟨_, _, -, h⟩
          · simp at h
          · simp at h

omit [Codec] in
theorem delete_error {clock : Clock} {err : KivaError} (h : delete key clock nonce i = .error err i') :
    i' = i.dropExpired key (clock.now 0) := by
  rcases bind_error.mp h with h | ⟨e, j, hl, h⟩
  · simp [live_eq] at h
  · obtain ⟨rfl, rfl⟩ := EStateM.Result.ok.inj ((live_eq key _ i).symm.trans hl)
    cases hat : i.at? key (clock.now 0) with
    | none => simp [hat] at h
    | some e =>
        rw [hat] at h
        rcases bind_error.mp h with h | ⟨_, _, hg, h⟩
        · simp at h
        · obtain ⟨rfl, rfl⟩ := get_ok.mp hg
          rcases bind_error.mp h with h | ⟨_, _, ha, h⟩
          · exact (attempt_error.mp h).2.symm
          · obtain ⟨-, rfl⟩ := attempt_ok.mp ha
            rcases bind_error.mp h with h | ⟨_, _, -, h⟩
            · exact append_error h
            · rcases bind_error.mp h with h | ⟨_, _, -, h⟩
              · simp at h
              · simp at h

omit [Codec] in
theorem delete_absent {clock : Clock} (h : i.at? key (clock.now 0) = none) :
    delete key clock nonce i = .ok false (i.dropExpired key (clock.now 0)) := by
  simp only [delete, bind, EStateM.bind, live_eq, h]
  rfl

theorem delete_eq {clock : Clock} {e : Entry} (h : i.at? key (clock.now 0) = some e)
    (hb : encodeRecord i.keys nonce key [] 0 flagTombstone (clock.secs 1) 0 = .ok rec) (hc : i.closed = false) :
    delete key clock nonce i = .ok true ((i.dropExpired key (clock.now 0)).commit [(.del key, rec)]) := by
  have hkeys : (i.dropExpired key (clock.now 0)).keys = i.keys := by
    rw [Drop.frame_star (dropExpired_drops i key (clock.now 0))]
  simp only [delete, bind, EStateM.bind, live_eq, h, get, getThe, MonadStateOf.get, EStateM.get, hkeys, hb, attempt,
    pure, EStateM.pure, append_eq (closed_dropExpired hc key _)]
  simp [Inner.commit, Inner.applyAllStaged, modify, modifyGet, MonadStateOf.modifyGet, EStateM.modifyGet]
  rfl

theorem delete_ok {clock : Clock} {found : Bool} (h : delete key clock nonce i = .ok found i') :
    (found = false ∧ i.at? key (clock.now 0) = none ∧ i' = i.dropExpired key (clock.now 0)) ∨
      ∃ e rec, found = true ∧ i.at? key (clock.now 0) = some e ∧ i.closed = false ∧
        encodeRecord i.keys nonce key [] 0 flagTombstone (clock.secs 1) 0 = .ok rec ∧
        i' = (i.dropExpired key (clock.now 0)).commit [(.del key, rec)] := by
  cases hat : i.at? key (clock.now 0) with
  | none =>
      obtain ⟨rfl, rfl⟩ := EStateM.Result.ok.inj ((delete_absent hat).symm.trans h)
      exact .inl ⟨rfl, rfl, rfl⟩
  | some e =>
      have hdel := h
      obtain ⟨e', j, hl, h⟩ := bind_ok.mp h
      obtain ⟨rfl, rfl⟩ := EStateM.Result.ok.inj ((live_eq key _ i).symm.trans hl)
      rw [hat] at h
      obtain ⟨j, _, hg, h⟩ := bind_ok.mp h
      obtain ⟨rfl, rfl⟩ := get_ok.mp hg
      obtain ⟨rec, _, ha, h⟩ := bind_ok.mp h
      obtain ⟨hb, rfl⟩ := attempt_ok.mp ha
      obtain ⟨base, j, hap, -⟩ := bind_ok.mp h
      have hcl := (append_ok hap).1
      rw [Drop.frame_star (dropExpired_drops i key (clock.now 0))] at hcl hb
      obtain ⟨rfl, rfl⟩ := EStateM.Result.ok.inj ((delete_eq hat hb hcl).symm.trans hdel)
      exact .inr ⟨e, rec, rfl, rfl, hcl, hb, rfl⟩

end

end

end KivaDb
