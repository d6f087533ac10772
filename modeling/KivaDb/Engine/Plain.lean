import KivaDb.Engine.Maintain
import KivaDb.Lib.Ignoring

namespace KivaDb

open Lib.LittleEndian Lib.Utf8 Lib.Flags Lib.Ignoring Format Crypt Glob

variable [External] [Chrono] [Codec] [Vectors]

/-- The engine without its account of open transactions and watches. -/
def Inner.plain (i : Inner) : Inner := { i with activeTxns := 0, tombVersions := ∅ }

namespace Inner

omit [Codec] in
@[simp] theorem plain_index (i : Inner) : i.plain.index = i.index := rfl

omit [Codec] in
@[simp] theorem txnEnd_plain (i : Inner) : i.txnEnd.plain = i.plain := by
  unfold txnEnd
  split <;> rfl

omit [Codec] in
theorem idxRemove_plain (i : Inner) (key : String) : i.plain.idxRemove key = (i.idxRemove key).plain := by
  unfold idxRemove
  rw [plain_index]
  split <;> rfl

omit [Codec] in
theorem dropExpired_plain (i : Inner) (key : String) (now : Int64) :
    i.plain.dropExpired key now = (i.dropExpired key now).plain := by
  unfold dropExpired
  rw [plain_index]
  split
  · split
    · exact i.idxRemove_plain key
    · rfl
  · rfl

omit [Codec] in
theorem raiseFormat_plain (i : Inner) (need : UInt32) : i.plain.raiseFormat need = (i.raiseFormat need).plain := by
  unfold raiseFormat
  by_cases h : i.format < need
  · rw [if_pos h, if_pos (show i.plain.format < need from h)]
    rfl
  · rw [if_neg h, if_neg (show ¬ i.plain.format < need from h)]

omit [Codec] in
theorem extend_plain (i : Inner) (buf : Bytes) : i.plain.extend buf = (i.extend buf).plain := by
  unfold extend
  rw [raiseFormat_plain]
  rfl

omit [Codec] in
/-- Whether a deletion is remembered is all that open transactions decide. -/
theorem buried_plain (i : Inner) (key : String) (op : Op) :
    (if 0 < i.plain.activeTxns then { i.plain with tombVersions := i.plain.tombVersions.insert key i.plain.seq }
      else i.plain).emit op =
      ((if 0 < i.activeTxns then { i with tombVersions := i.tombVersions.insert key i.seq } else i).emit op).plain := by
  have hnone : ¬ 0 < i.plain.activeTxns := Nat.not_lt_zero 0
  rw [if_neg hnone]
  split <;> rfl

end Inner

omit [Codec] in
theorem live_plain (key : String) (now : Int64) : Ignores Inner.plain (live key now) := by
  intro i
  show EStateM.Result.ok _ (i.plain.dropExpired key now) = .ok _ (i.dropExpired key now).plain
  rw [i.dropExpired_plain]
  rfl

omit [Codec] in
theorem refuse_plain (r : Result Unit) : Ignores Inner.plain (refuse r) := by
  cases r with
  | ok a => exact Ignores.pure ()
  | error e => exact Ignores.throw e

omit [Codec] in
theorem attempt_plain {α : Type} (r : Result α) : Ignores Inner.plain (attempt r) := by
  cases r with
  | ok a => exact Ignores.pure a
  | error e => exact Ignores.throw e

omit [Codec] in
theorem append_plain (buf : Bytes) : Ignores Inner.plain (append buf) := by
  intro i
  unfold IgnoresAt append
  simp only [bind, EStateM.bind, get, getThe, MonadStateOf.get, EStateM.get]
  by_cases h : i.closed = true
  · rw [if_pos h, if_pos (show i.plain.closed = true from h)]
    rfl
  · rw [if_neg h, if_neg (show ¬ i.plain.closed = true from h), i.extend_plain, i.raiseFormat_plain]
    rfl

theorem conformed_plain (key : String) (value : Value) (at_ now : Int64) :
    Ignores Inner.plain (conformed key value at_ now) := by
  refine Ignores.get_bind (fun _ => rfl) fun i => ?_
  dsimp only
  split
  · exact Ignores.pure none
  · split
    · exact Ignores.pure _
    · refine (live_plain key now).bind fun e => ?_
      cases e with
      | none => exact Ignores.throw _
      | some e =>
          refine Ignores.get_bind (fun _ => rfl) fun j => ?_
          split
          · split
            · exact Ignores.pure none
            · exact Ignores.throw _
          · exact Ignores.throw _

theorem putLocked_plain (key : String) (value : Value) (expiresAt : Int64) (msgpack : Bool) (timestamp now : Int64)
    (nonce : Draw) : Ignores Inner.plain (putLocked key value expiresAt msgpack timestamp now nonce) := by
  refine Ignores.get_bind (fun _ => rfl) fun i => ?_
  refine (attempt_plain _).bind fun r => ?_
  refine (live_plain key now).bind fun e => ?_
  refine (append_plain _).bind fun offset => ?_
  refine Ignores.bind (Ignores.modify fun j => ?_) fun _ => Ignores.pure _
  rfl

/-- A write by one session is the same whoever else has transactions or watches. -/
theorem put_plain (key : String) (value : Value) (expiresAt : Int64) (msgpack : Bool) (clock : Clock) (nonce : Draw) :
    Ignores Inner.plain (put key value expiresAt msgpack clock nonce) := by
  refine (conformed_plain key value _ _).bind fun v => ?_
  refine Ignores.get_bind (fun _ => rfl) fun i => ?_
  refine (refuse_plain _).bind fun _ => ?_
  refine Ignores.get_bind (fun _ => rfl) fun i => ?_
  refine Ignores.get_bind (fun _ => rfl) fun i => ?_
  exact (refuse_plain _).bind fun _ => putLocked_plain _ _ _ _ _ _ _

omit [Codec] in
theorem delete_plain (key : String) (clock : Clock) (nonce : Draw) : Ignores Inner.plain (delete key clock nonce) := by
  refine (live_plain key _).bind fun e => ?_
  cases e with
  | none => exact Ignores.pure false
  | some e =>
      refine Ignores.get_bind (fun _ => rfl) fun i => ?_
      refine (attempt_plain _).bind fun rec => ?_
      refine (append_plain _).bind fun _ => ?_
      refine Ignores.bind (Ignores.modify fun j => ?_) fun _ => Ignores.pure true
      have hgone : ({ j.plain with seq := j.plain.seq + 1 } : Inner).idxRemove key =
          (({ j with seq := j.seq + 1 } : Inner).idxRemove key).plain := Inner.idxRemove_plain { j with seq := j.seq + 1 } key
      rw [hgone]
      exact Inner.buried_plain _ key (.del key)

omit [Codec] in
theorem watchAll_plain (now : Int64) (since : Nat) (keys : List String) :
    Ignores Inner.plain (watchAll now since keys) := by
  induction keys with
  | nil => exact Ignores.pure []
  | cons k ks ih => exact (live_plain k now).bind fun _ => ih.bind fun _ => Ignores.pure _

omit [Codec] in
/-- Watching keys looks at them, and no more. -/
theorem watch_plain (keys : List String) (now : Int64) (i : Inner) :
    mapState Inner.plain (watch keys now i) = mapState Inner.plain (watchAll now i.seq keys i) :=
  (watchAll_plain now i.seq keys).alike { i with activeTxns := i.activeTxns + 1 } i rfl

end KivaDb
