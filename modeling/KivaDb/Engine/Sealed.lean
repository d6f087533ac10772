import KivaDb.Engine.Commits
import KivaDb.Engine.Libraries

namespace KivaDb

open Lib.LittleEndian Lib.Utf8 Lib.Flags Lib.Fallible Format Crypt Log Relation

section

variable [External] [Chrono] [Vectors]

/-- The operation has nothing to write: it deletes a key that is not there. -/
def BatchOp.idle (i : Inner) (now : Int64) : BatchOp → Bool
  | put _ _ _ _ => false
  | del key => (i.at? key now).isNone

def BatchOp.isPut : BatchOp → Bool
  | put _ _ _ _ => true
  | del _ => false

theorem BatchOp.isPut_of_idle {i : Inner} {now : Int64} {op : BatchOp} (h : op.idle i now = true) :
    op.isPut = false := by
  cases op with
  | put key value ex msgpack => simp [idle] at h
  | del key => rfl

theorem idle_congr {i j : Inner} {now : Int64} (h : ∀ k, i.at? k now = j.at? k now) (op : BatchOp) :
    op.idle i now = op.idle j now := by
  cases op with
  | put key value ex msgpack => rfl
  | del key => simp only [BatchOp.idle, h]

variable [Codec]

/-- Schemas have a say in puts only. -/
theorem conformAll_isPut {at_ now : Int64} {ops ops' : List BatchOp} {i i' : Inner}
    (h : conformAll at_ now ops i = .ok ops' i') :
    ops'.any BatchOp.isPut = ops.any BatchOp.isPut ∧ (ops.any BatchOp.isPut = false → ops = ops' ∧ i = i') := by
  induction ops generalizing i ops' with
  | nil =>
      obtain ⟨rfl, rfl⟩ := pure_ok.mp h
      exact ⟨rfl, fun _ => ⟨rfl, rfl⟩⟩
  | cons op ops ih =>
      cases op with
      | put key value ex msgpack =>
          obtain ⟨v, j, -, h⟩ := bind_ok.mp h
          obtain ⟨rest, k, -, h⟩ := bind_ok.mp h
          obtain ⟨rfl, rfl⟩ := pure_ok.mp h
          simp [BatchOp.isPut]
      | del key =>
          obtain ⟨rest, k, hr, h⟩ := bind_ok.mp h
          obtain ⟨rfl, rfl⟩ := pure_ok.mp h
          obtain ⟨h1, h2⟩ := ih hr
          simp only [List.any_cons, BatchOp.isPut, Bool.false_or]
          refine ⟨h1, fun hn => ?_⟩
          obtain ⟨rfl, rfl⟩ := h2 hn
          exact ⟨rfl, rfl⟩

theorem conformBatch_isPut {at_ now : Int64} {ops ops' : List BatchOp} {i i' : Inner}
    (h : conformBatch at_ now ops i = .ok ops' i') :
    ops'.any BatchOp.isPut = ops.any BatchOp.isPut ∧ (ops.any BatchOp.isPut = false → ops = ops' ∧ i = i') := by
  obtain ⟨j, _, hg, h⟩ := bind_ok.mp h
  obtain ⟨rfl, rfl⟩ := get_ok.mp hg
  split at h
  · obtain ⟨rfl, rfl⟩ := pure_ok.mp h
    exact ⟨rfl, fun _ => ⟨rfl, rfl⟩⟩
  · exact conformAll_isPut h

theorem checkBatch_idle {ops ops' : List BatchOp} {beginSeq : Option Nat} {watched : Option (List WatchedKey)}
    {clock : Clock} {i i' : Inner} (h : checkBatch ops beginSeq watched clock i = .ok ops' i') :
    (∀ op ∈ ops', op.idle i' (clock.now 0) = true) ↔ ∀ op ∈ ops, op.idle i (clock.now 0) = true := by
  obtain ⟨_, i₁, hw, h⟩ := bind_ok.mp h
  obtain ⟨_, i₂, hc, h⟩ := bind_ok.mp h
  obtain ⟨ops₁, i₃, hb, h⟩ := bind_ok.mp h
  obtain ⟨_, i₄, hl, h⟩ := bind_ok.mp h
  obtain ⟨rfl, rfl⟩ := pure_ok.mp h
  have hd : ReflTransGen (Drop (clock.now 0)) i i₂ :=
    (Within.ok (.checkWatched fun _ _ w _ => within_live w.key _) hw).trans (Within.ok (.checkConflict beginSeq ops) hc)
  obtain ⟨hput, hsame⟩ := conformBatch_isPut hb
  cases hp : ops.any BatchOp.isPut with
  | false =>
      obtain ⟨rfl, rfl⟩ := hsame hp
      have hd' := hd.trans (Within.ok (.checkLast _ _) hl)
      refine forall₂_congr fun op _ => ?_
      rw [idle_congr fun k => Drop.at?_star hd' (Int64.le_refl _) k]
  | true =>
      have hno {j : Inner} {l : List BatchOp} (hl : l.any BatchOp.isPut = true) :
          ¬ ∀ op ∈ l, op.idle j (clock.now 0) = true := by
        obtain ⟨op, hop, hisp⟩ := List.any_eq_true.mp hl
        intro hall
        rw [BatchOp.isPut_of_idle (hall op hop)] at hisp
        exact Bool.false_ne_true hisp
      exact iff_of_false (hno (hput.trans hp)) (hno hp)

section

variable {now ts : Int64} {draws : Nat → Draw} {n : Nat} {ops : List BatchOp} {st st' : Staging} {i i' : Inner}

theorem prefix_stage (h : stage now ts draws n ops st i = .ok st' i') : st.staged <+: st'.staged := by
  induction ops generalizing n st i with
  | nil =>
      obtain ⟨rfl, rfl⟩ := pure_ok.mp h
      exact List.prefix_rfl
  | cons op ops ih =>
      cases op with
      | put key value ex msgpack =>
          obtain ⟨rec, entry, raw, -, h⟩ := stage_put_ok h
          exact (List.prefix_append ..).trans (ih h)
      | del key =>
          obtain ⟨-, rec, -, h⟩ | ⟨-, h⟩ := stage_del_ok h
          · exact (List.prefix_append ..).trans (ih h)
          · exact ih h

/-- A batch stages nothing exactly when each of its operations is idle. -/
theorem stage_eq_nil {growth : Nat} (h : stage now ts draws n ops ⟨[], ∅, growth⟩ i = .ok st' i') :
    st'.staged = [] ↔ ∀ op ∈ ops, op.idle i now = true := by
  have hne {l : List (Staged × Bytes)} {p : Staged × Bytes} (hl : [] ++ [p] <+: l) : l ≠ [] := by
    rintro rfl
    simp at hl
  induction ops generalizing n i with
  | nil =>
      obtain ⟨rfl, rfl⟩ := pure_ok.mp h
      simp
  | cons op ops ih =>
      cases op with
      | put key value ex msgpack =>
          obtain ⟨rec, entry, raw, -, h⟩ := stage_put_ok h
          simp [BatchOp.idle, hne (prefix_stage h)]
      | del key =>
          have hseen : seen i ∅ key now = (i.at? key now).isSome := by simp [seen]
          obtain ⟨hs, rec, -, h⟩ | ⟨hs, h⟩ := stage_del_ok h
          · rw [hseen] at hs
            refine iff_of_false (hne (prefix_stage h)) fun hall => ?_
            have hn := hall _ List.mem_cons_self
            simp only [BatchOp.idle, Option.isNone_iff_eq_none] at hn
            simp [hn] at hs
          · rw [hseen] at hs
            have hd := looked_drops i ∅ key now
            have hidle : (BatchOp.del key).idle i now = true := by
              simpa [BatchOp.idle, Option.isNone_iff_eq_none] using hs
            have hrest : st'.staged = [] ↔ ∀ op ∈ ops, op.idle (looked i ∅ key now) now = true := ih h
            rw [hrest, List.forall_mem_cons, and_iff_right hidle]
            refine forall₂_congr fun op _ => ?_
            rw [idle_congr fun k => Drop.at?_star hd (Int64.le_refl _) k]

end

/-- The record passes its check and opens to the key and the value that were
sealed. -/
def Opens (keys : Option Keys) (algo : Compression) (p : Staged × Bytes) : Prop :=
  verifyRecord p.2 = true ∧ openRecord keys p.2 = .ok (asBytes p.1.key, p.1.stored algo)

/-- What the staged operations, appended from the byte `pos` on, change. -/
def changesOf : Nat → List (Staged × Bytes) → List Change
  | _, [] => []
  | pos, (s, rec) :: rest =>
      ⟨pos, s.key, s.entry.map fun e => { e with offset := pos }.reread⟩ :: changesOf (pos + rec.length) rest

/-- Replaying the file from the byte `pos` on applies every one of `recs`, to
whatever was indexed before. -/
def Replays (keys : Option Keys) (file : Bytes) (pos : Nat) (recs : List (Staged × Bytes)) : Prop :=
  ∀ index seq, ∃ o, scanLog file pos index seq keys false = .ok o ∧
    (o.index, o.seq) = (changesOf pos recs).foldl applyChange (index, seq)

omit [Vectors] [Codec] in
/-- Once it is stamped, the last record of an encrypted batch does not open. -/
theorem not_opens_commitLast {k : Keys} {algo : Compression} {ps : List (Staged × Bytes)} (hne : ps ≠ [])
    (h : ∀ p ∈ ps, Encoded (some k) algo p) : ¬ ∀ p ∈ commitLast ps, Opens (some k) algo p := by
  obtain ⟨qs, q, rfl⟩ := List.eq_nil_or_concat ps |>.resolve_left hne
  rw [List.concat_eq_append] at h ⊢
  obtain ⟨nonce, ty, flags, ts, ex, henc, hc⟩ := h q (List.mem_append_right _ List.mem_cons_self)
  rw [commitLast_concat]
  intro hall
  have ho := (hall _ (List.mem_append_right _ List.mem_cons_self)).2
  dsimp only at ho
  rw [openRecord_stampCommit_sealed hc (canOpen_self _) henc] at ho
  simp at ho

/-- An engine with encryption keys appends batches whose records all open, and
that a replay applies whole, exactly when they have no record: when each
operation deletes a key that is not there. -/
theorem encrypted_batch_opens_iff {i i' : Inner} {k : Keys} (hk : i.keys = some k) (ops : List BatchOp)
    (beginSeq : Option Nat) (watched : Option (List WatchedKey)) (clock : Clock) (draws : Nat → Draw)
    (h : applyBatchWatched ops beginSeq watched clock draws i = .ok () i') :
    ∃ recs i₁, stageBatch ops beginSeq watched clock draws i = .ok recs i₁ ∧
      (recs = [] ∧ i' = i₁ ∨ recs ≠ [] ∧ i' = i₁.commit recs) ∧
      ((∀ p ∈ recs, Opens i.keys i.compression p) ∧ Replays i.keys i'.file i.file.length recs ↔
        ∀ op ∈ ops, op.idle i (clock.now 0) = true) := by
  obtain ⟨recs, i₁, hs, hi'⟩ := applyBatchWatched_ok h
  refine ⟨recs, i₁, hs, hi'.imp_right fun hr => ⟨hr.1, hr.2.2⟩, ?_⟩
  have hfr := Drop.frame_star ((within_stageBatch ops beginSeq watched clock draws).ok hs)
  obtain ⟨ops', j, st, hc, hst, rfl⟩ := stageBatch_ok hs
  rw [← checkBatch_idle hc, ← stage_eq_nil hst]
  have hj := Drop.frame_star ((within_checkBatch ops beginSeq watched clock).ok hc)
  constructor
  · rintro ⟨hall, -⟩
    by_contra hne
    refine not_opens_commitLast hne (k := k) ?_ (hk ▸ hall)
    have henc := stage_encoded (by simp) hst
    rw [hj] at henc
    exact hk ▸ henc
  · intro hnil
    have hrecs : commitLast st.staged = [] := commitLast_eq_nil.mpr hnil
    obtain ⟨-, rfl⟩ := hi'.resolve_right fun hr => hr.1 hrecs
    have hfile : i'.file = i.file := by rw [hfr]
    rw [hrecs]
    refine ⟨by simp, fun index seq => ?_⟩
    have hend : (i'.file).drop i.file.length = [] := by rw [hfile, List.drop_length]
    refine ⟨_, by rw [scanLog, replay_eq_scan, hend, scan_stop applyChange _ _ _ nextFrame_nil]; rfl, rfl⟩

end

section

open Reference

local instance textCodec : Codec := codec []

def sampleKeys : Keys := ⟨⟨[1, 2, 3, 4], rfl, ()⟩, []⟩

def sampleDraws : Nat → Draw := fun _ => .ok ⟨List.replicate 12 7, rfl⟩

def sampleBatch : List BatchOp := [.put "a" (.str "x") 0 false]

/-- The engine of `sampleKeys` once it has committed `sampleBatch`. -/
def afterBatch : Inner :=
  left (applyBatchWatched sampleBatch none none (Clock.still 0) sampleDraws) (fresh (some sampleKeys))

theorem sampleBatch_accepted :
    applyBatchWatched sampleBatch none none (Clock.still 0) sampleDraws (fresh (some sampleKeys)) =
      .ok () afterBatch := by
  apply ok_of_succeeds
  decide

theorem encrypted_batch_opens_iff_sample : ∃ recs i₁,
    stageBatch sampleBatch none none (Clock.still 0) sampleDraws (fresh (some sampleKeys)) = .ok recs i₁ ∧
      ¬ ((∀ p ∈ recs, Opens (some sampleKeys) .none p) ∧
        Replays (some sampleKeys) afterBatch.file fileHeaderLen recs) := by
  obtain ⟨recs, i₁, hs, -, hiff⟩ := encrypted_batch_opens_iff (k := sampleKeys) rfl sampleBatch none none (Clock.still 0)
    sampleDraws sampleBatch_accepted
  refine ⟨recs, i₁, hs, fun h => ?_⟩
  exact absurd (hiff.mp h _ List.mem_cons_self) Bool.false_ne_true

/-- A batch of one put on an encrypted engine is accepted; the record it appends
passes its check, does not open, and a replay of the file applies nothing. -/
theorem sealed_batch_is_lost :
    applyBatchWatched sampleBatch none none (Clock.still 0) sampleDraws (fresh (some sampleKeys)) =
        .ok () afterBatch ∧
      verifyRecord (afterBatch.file.drop fileHeaderLen) = true ∧
      openRecord (some sampleKeys) (afterBatch.file.drop fileHeaderLen) = .error .tampered ∧
      (scanLog afterBatch.file fileHeaderLen ∅ 0 (some sampleKeys) false).map (fun o => (o.index.toList, o.seq)) =
        .ok ([], 0) :=
  ⟨sampleBatch_accepted, by decide +kernel, by decide +kernel, by decide +kernel⟩

end

end KivaDb
