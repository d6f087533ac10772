import KivaDb.Engine.Commits

namespace KivaDb

open Lib.LittleEndian Lib.Fallible Crypt

def KivaError.isConflict : KivaError → Bool
  | .conflict _ => true
  | _ => false

/-- An error that is not a conflict. -/
def Unrelated (e : KivaError) : Prop := e.isConflict = false

theorem unrelated_encodeRecord [External] (keys : Option Keys) (nonce : Draw) (key : String) (value : Bytes)
    (ty flags : UInt8) (ts ex : Int64) : ErrorIn Unrelated (encodeRecord keys nonce key value ty flags ts ex) := by
  cases keys with
  | none => exact .ok _
  | some keys =>
      refine .bind ?_ fun _ => .ok _
      cases nonce with
      | error why => exact .error rfl
      | ok n => exact .ok _

theorem unrelated_validateKey (key : String) : ErrorIn Unrelated (validateKey key) := by
  unfold validateKey
  split
  · exact .error rfl
  · split
    · exact .error rfl
    · exact .ok _

section

variable [External] [Chrono] [Vectors]

namespace Lib.Fallible.FailsIn

variable {p : KivaError → Prop}

theorem attempt {α : Type} {r : Result α} (h : ErrorIn p r) : FailsIn p (attempt r) := by
  intro i e i' he
  exact h e (attempt_error.mp he).1

theorem refuse {r : Result Unit} (h : ErrorIn p r) : FailsIn p (refuse r) := by
  intro i e i' he
  cases r with
  | ok u => simp [KivaDb.refuse] at he
  | error err =>
      obtain ⟨rfl, -⟩ := throw_error.mp he
      exact h err rfl

theorem live (key : String) (now : Int64) : FailsIn p (live key now) := by
  intro i e i' he
  simp [live_eq] at he

theorem existsNow (shadow : Std.ExtTreeMap String Bool compare) (key : String) (now : Int64) :
    FailsIn p (existsNow shadow key now) := by
  unfold KivaDb.existsNow
  split
  · exact .pure _
  · exact .bind (.live key now) fun _ => .pure _

theorem changed (now : Int64) (ws : List WatchedKey) : FailsIn p (changed now ws) := by
  induction ws with
  | nil => exact .pure _
  | cons w ws ih =>
      refine .bind .get fun i => ?_
      split
      · exact .pure _
      · split
        · refine .bind (.live w.key now) fun e => ?_
          split
          · exact .pure _
          · exact ih
        · exact ih

end Lib.Fallible.FailsIn

theorem unrelated_append (buf : Bytes) : FailsIn Unrelated (append buf) := by
  refine .bind .get fun i => ?_
  split
  · exact .throw rfl
  · exact .bind (.set _) fun _ => .pure _

theorem unrelated_checkVectorRoom (i : Inner) (added : Nat) : ErrorIn Unrelated (i.checkVectorRoom added) := by
  unfold Inner.checkVectorRoom
  split
  · exact .ok _
  · split
    · exact .error rfl
    · split
      · exact .error rfl
      · exact .ok _

variable [Codec]

theorem unrelated_checkUnique (i : Inner) (writes : List (String × Option DocView)) (now : Int64) :
    ErrorIn Unrelated (i.checkUnique writes now) := by
  refine .forM (fun s => .bind (.foldlM (fun taken w => ?_) _ _) fun _ => .ok _) _
  unfold Inner.checkWrite
  split
  · exact .ok _
  · split
    · exact .ok _
    · dsimp only
      split
      · exact .error rfl
      · exact .ok _

theorem unrelated_conformed (key : String) (value : Value) (at_ now : Int64) :
    FailsIn Unrelated (conformed key value at_ now) := by
  unfold conformed
  refine .bind .get fun i => ?_
  dsimp only
  split
  · exact .pure _
  · split
    · exact .pure _
    · refine .bind (.live key now) fun e => ?_
      cases e with
      | none => exact .throw rfl
      | some e =>
          refine .bind .get fun i => ?_
          split
          · split
            · exact .pure _
            · exact .throw rfl
          · exact .throw rfl

theorem unrelated_conformBatch (at_ now : Int64) (ops : List BatchOp) :
    FailsIn Unrelated (conformBatch at_ now ops) := by
  have hall (ops : List BatchOp) : FailsIn Unrelated (conformAll at_ now ops) := by
    induction ops with
    | nil => exact .pure _
    | cons op ops ih =>
        cases op with
        | put key value ex msgpack =>
            exact .bind (unrelated_conformed key value at_ now) fun _ => .bind ih fun _ => .pure _
        | del key => exact .bind ih fun _ => .pure _
  refine .bind .get fun i => ?_
  split
  · exact .pure _
  · exact hall ops

theorem unrelated_checkLast (ops : List BatchOp) (now : Int64) : FailsIn Unrelated (checkLast ops now) := by
  refine .bind .get fun i => ?_
  split
  · exact .bind .get fun j => .refuse (unrelated_checkUnique j _ now)
  · exact .pure _

/-- Writing a value down never ends in a conflict. -/
def CodecUnrelated : Prop := ∀ (v : Value) (msgpack : Bool), ErrorIn Unrelated (Codec.encodeStored v msgpack)

theorem unrelated_buildPut (hc : CodecUnrelated) (i : Inner) (key : String) (value : Value) (ex : Int64)
    (msgpack : Bool) (ts : Int64) (extra : UInt8) (nonce : Draw) :
    ErrorIn Unrelated (buildPut i key value ex msgpack ts extra nonce) := by
  refine .bind (unrelated_validateKey key) fun _ => .bind (hc value _) fun r => ?_
  obtain ⟨raw, enc⟩ := r
  dsimp only
  split
  · exact .error rfl
  · exact .bind (unrelated_encodeRecord _ _ _ _ _ _ _ _) fun _ => .ok _

theorem unrelated_stage (hc : CodecUnrelated) (now ts : Int64) (draws : Nat → Draw) (n : Nat) (ops : List BatchOp)
    (st : Staging) : FailsIn Unrelated (stage now ts draws n ops st) := by
  induction ops generalizing n st with
  | nil => exact .pure _
  | cons op ops ih =>
      cases op with
      | put key value ex msgpack =>
          exact .bind .get fun i => .bind (.attempt (unrelated_buildPut hc i key value ex msgpack ts _ _)) fun _ =>
            .bind (.existsNow _ key now) fun _ => .bind .get fun _ => ih _ _
      | del key =>
          refine .bind (.existsNow _ key now) fun found => ?_
          split
          · exact .bind .get fun i => .bind (.attempt (unrelated_encodeRecord _ _ _ _ _ _ _ _)) fun _ => ih _ _
          · exact ih _ _

end

section

variable [External] [Chrono] [Vectors]

/-- What makes a watched key count as changed. -/
def WatchedKey.Changed (w : WatchedKey) (i : Inner) (now : Int64) : Prop :=
  w.since < i.versionOf w.key ∨ w.since < i.resetSeq ∨ w.existed = true ∧ i.at? w.key now = none

theorem dropExpired_live {i : Inner} {key : String} {now : Int64} {e : Entry} (h : i.at? key now = some e) :
    i.dropExpired key now = i := by
  obtain ⟨he, hx⟩ := Option.filter_eq_some_iff.mp h
  have hne : ¬ e.isExpired now = true := by simpa using hx
  simp [Inner.dropExpired, he, hne]

/-- One of the watched keys has changed and is named, or none has and looking at
them has left everything as it was. -/
theorem changed_cases (now : Int64) (ws : List WatchedKey) (i : Inner) :
    (changed now ws i = .ok none i ∧ ∀ w ∈ ws, ¬ w.Changed i now) ∨
      ∃ w ∈ ws, w.Changed i now ∧ ∃ i', changed now ws i = .ok (some w.key) i' := by
  induction ws with
  | nil => exact .inl ⟨rfl, by simp⟩
  | cons w ws ih =>
      have hrec : changed now (w :: ws) i =
          (if w.since < i.versionOf w.key ∨ w.since < i.resetSeq then pure (some w.key)
            else if w.existed then
              live w.key now >>= fun e => if e.isNone then pure (some w.key) else changed now ws
            else changed now ws : M (Option String)) i := rfl
      by_cases hv : w.since < i.versionOf w.key ∨ w.since < i.resetSeq
      · refine .inr ⟨w, List.mem_cons_self, ?_, i, ?_⟩
        · rcases hv with hv | hv
          · exact .inl hv
          · exact .inr (.inl hv)
        · rw [hrec, if_pos hv]
          rfl
      · have hrest : ¬ (w.existed = true ∧ i.at? w.key now = none) → changed now (w :: ws) i = changed now ws i := by
          intro hno
          rw [hrec, if_neg hv]
          cases hex : w.existed with
          | false => rfl
          | true =>
              cases hat : i.at? w.key now with
              | none => exact absurd ⟨hex, hat⟩ hno
              | some e =>
                  simp only [if_true, bind, EStateM.bind, live_eq, hat, dropExpired_live hat]
                  rfl
        by_cases hgone : w.existed = true ∧ i.at? w.key now = none
        · refine .inr ⟨w, List.mem_cons_self, .inr (.inr hgone), i.dropExpired w.key now, ?_⟩
          rw [hrec, if_neg hv, if_pos hgone.1]
          simp only [bind, EStateM.bind, live_eq, hgone.2]
          rfl
        · rw [hrest hgone]
          rcases ih with ⟨hc, hn⟩ | ⟨w', hw', hch, hc⟩
          · refine .inl ⟨hc, List.forall_mem_cons.mpr ⟨?_, hn⟩⟩
            rintro (hv' | hv' | hg)
            · exact hv (.inl hv')
            · exact hv (.inr hv')
            · exact hgone hg
          · exact .inr ⟨w', List.mem_cons_of_mem w hw', hch, hc⟩

/-- What a batch is refused for as a conflict. -/
def Refused (i : Inner) (ops : List BatchOp) (beginSeq : Option Nat) (watched : Option (List WatchedKey))
    (now : Int64) : Prop :=
  (∃ ws ∈ watched, ∃ w ∈ ws, w.Changed i now) ∨
    ∃ b ∈ beginSeq, b < i.resetSeq ∨ ∃ op ∈ ops, b < i.versionOf op.key

theorem checkWatched_cases (watched : Option (List WatchedKey)) (now : Int64) (i : Inner) :
    (checkWatched watched now i = .ok () i ∧ ¬ ∃ ws ∈ watched, ∃ w ∈ ws, w.Changed i now) ∨
      (∃ ws ∈ watched, ∃ w ∈ ws, w.Changed i now) ∧ ∃ msg i', checkWatched watched now i = .error (.conflict msg) i' := by
  cases watched with
  | none => exact .inl ⟨rfl, by simp⟩
  | some ws =>
      rcases changed_cases now ws i with ⟨hc, hn⟩ | ⟨w, hw, hch, i', hc⟩
      · refine .inl ⟨?_, ?_⟩
        · exact bind_ok.mpr ⟨none, i, hc, rfl⟩
        · rintro ⟨ws', hws, w, hw, hch⟩
          obtain rfl := Option.some.inj hws
          exact hn w hw hch
      · exact .inr ⟨⟨ws, rfl, w, hw, hch⟩, _, i', bind_error.mpr (.inr ⟨_, i', hc, rfl⟩)⟩

theorem checkConflict_cases (beginSeq : Option Nat) (ops : List BatchOp) (i : Inner) :
    (checkConflict beginSeq ops i = .ok () i ∧
        ¬ ∃ b ∈ beginSeq, b < i.resetSeq ∨ ∃ op ∈ ops, b < i.versionOf op.key) ∨
      (∃ b ∈ beginSeq, b < i.resetSeq ∨ ∃ op ∈ ops, b < i.versionOf op.key) ∧
        ∃ msg, checkConflict beginSeq ops i = .error (.conflict msg) i := by
  cases beginSeq with
  | none => exact .inl ⟨rfl, by simp⟩
  | some b =>
      have hrun : checkConflict (some b) ops i = refuse (i.conflict b ops) i := rfl
      rw [hrun, Inner.conflict]
      split
      · rename_i hr
        exact .inr ⟨⟨b, rfl, .inl hr⟩, _, rfl⟩
      · rename_i hr
        split
        · rename_i op hf
          have hb : b < i.versionOf op.key := by simpa using List.find?_some hf
          exact .inr ⟨⟨b, rfl, .inr ⟨op, List.mem_of_find?_eq_some hf, hb⟩⟩, _, rfl⟩
        · rename_i hf
          refine .inl ⟨rfl, ?_⟩
          rintro ⟨b', hb', hres | ⟨op, hop, hv⟩⟩
          · obtain rfl := Option.some.inj hb'
            exact hr hres
          · obtain rfl := Option.some.inj hb'
            have hno := List.find?_eq_none.mp hf op hop
            simp [hv] at hno

variable [Codec]

/-- A batch is refused as a conflict exactly when a watched key counts as
changed, or its transaction has been overtaken. -/
theorem conflict_iff (hc : CodecUnrelated) (i : Inner) (ops : List BatchOp) (beginSeq : Option Nat)
    (watched : Option (List WatchedKey)) (clock : Clock) (draws : Nat → Draw) :
    (∃ msg i', applyBatchWatched ops beginSeq watched clock draws i = .error (.conflict msg) i') ↔
      Refused i ops beginSeq watched (clock.now 0) := by
  rcases checkWatched_cases watched (clock.now 0) i with ⟨hw, hnw⟩ | ⟨hch, msg, i', hw⟩
  · rcases checkConflict_cases beginSeq ops i with ⟨hb, hnb⟩ | ⟨hov, msg, hb⟩
    · refine ⟨?_, fun h => (h.elim hnw hnb).elim⟩
      rintro ⟨msg, i', h⟩
      exfalso
      -- past the two checks nothing ends in a conflict
      have hrest : FailsIn Unrelated (do
          let ops ← conformBatch (clock.now 1) (clock.now 2) ops
          checkLast ops (clock.now 3)
          return ops) :=
        .bind (unrelated_conformBatch _ _ ops) fun _ => .bind (unrelated_checkLast _ _) fun _ => .pure _
      have happ (recs : List (Staged × Bytes)) : FailsIn Unrelated (if recs.isEmpty then return () else do
          let base ← append (recs.flatMap Prod.snd)
          modify fun i => i.applyAllStaged base recs) := by
        split
        · exact .pure _
        · exact .bind (unrelated_append _) fun _ => .modify _
      have hun : Unrelated (.conflict msg) := by
        rcases bind_error.mp h with h | ⟨recs, j, -, h⟩
        · rcases bind_error.mp h with h | ⟨ops', j, -, h⟩
          · rcases bind_error.mp h with h | ⟨_, j, hw', h⟩
            · rw [hw] at h
              cases h
            · obtain ⟨-, rfl⟩ := EStateM.Result.ok.inj (hw.symm.trans hw')
              rcases bind_error.mp h with h | ⟨_, j, -, h⟩
              · rw [hb] at h
                cases h
              · exact hrest _ _ _ h
          · rcases bind_error.mp h with h | ⟨st, j, -, h⟩
            · exact unrelated_stage hc _ _ _ _ _ _ _ _ _ h
            · split at h
              · simp at h
              · refine FailsIn.bind .get (fun i => ?_) _ _ _ h
                exact .bind (.refuse (unrelated_checkVectorRoom i _)) fun _ => .pure _
        · exact happ recs _ _ _ h
      exact Bool.noConfusion hun
    · refine ⟨fun _ => .inr hov, fun _ => ⟨msg, i, ?_⟩⟩
      have hcb : checkBatch ops beginSeq watched clock i = .error (.conflict msg) i :=
        bind_error.mpr (.inr ⟨(), i, hw, bind_error.mpr (.inl hb)⟩)
      exact bind_error.mpr (.inl (bind_error.mpr (.inl hcb)))
  · refine ⟨fun _ => .inl hch, fun _ => ⟨msg, i', ?_⟩⟩
    have hcb : checkBatch ops beginSeq watched clock i = .error (.conflict msg) i' := bind_error.mpr (.inl hw)
    exact bind_error.mpr (.inl (bind_error.mpr (.inl hcb)))

end

end KivaDb
