import KivaDb.Engine.Acts
import KivaDb.Front.Watching

namespace KivaDb

open Lib.LittleEndian Lib.Utf8 Lib.Fallible Crypt Relation

variable [External] [Chrono] [Codec] [Vectors]

/-- A step of the engine that writes nothing: a key whose TTL has elapsed is
dropped, or the account of open transactions and watches changes. -/
inductive Inner.Idle : Inner → Inner → Prop
  | drop {now : Int64} {i j : Inner} (h : Drop now i j) : Idle i j
  | account {i j : Inner} (h : i.plain = j.plain) : Idle i j

/-- How often the database was emptied. -/
def Inner.resets (i : Inner) : Nat := i.emitted.count .reset

omit [Codec] in
theorem Inner.Idle.resets {i j : Inner} (h : i.Idle j) : j.resets = i.resets := by
  cases h with
  | drop h =>
      unfold Inner.resets
      rw [h.frame]
  | account h =>
      have hemitted : i.plain.emitted = j.plain.emitted := by rw [h]
      exact congrArg (List.count .reset) hemitted.symm

theorem Acts.resets {α : Type} {K : String → Prop} {t : Int64} {m : M α} (h : Acts K t m) (i : Inner) :
    (left m i).resets = i.resets := by
  obtain ⟨j, hdrops, hleft⟩ := h i
  have hj : j.resets = i.resets := by
    unfold Inner.resets
    rw [DropOf.frame_star hdrops]
  obtain hleft | ⟨recs, hleft⟩ := hleft
  · rw [hleft, hj]
  · have hops : (recs.map fun p => p.1.op).count .reset = 0 := by
      rw [List.count_eq_zero, List.mem_map]
      rintro ⟨⟨s, rec⟩, -, hop⟩
      cases s <;> exact nomatch hop
    rw [hleft, ← hj]
    unfold Inner.resets
    rw [Inner.commit_frame, List.count_append, hops, Nat.add_zero]

namespace Engine

omit [Codec] in
theorem live_idle (key : String) (now : Int64) : Within Inner.Idle (live key now) :=
  fun i => ReflTransGen.mono (fun _ _ h => .drop h) _ _ (within_live key now i)

theorem get_idle (key : String) (now : Int64) : Within Inner.Idle (Engine.get key now) := by
  refine (live_idle key now).bind fun e => ?_
  cases e with
  | none => exact Within.pure none
  | some e => exact Within.get.bind fun i => (Within.attempt _).bind fun v => Within.pure _

omit [Codec] in
theorem len_idle : Within Inner.Idle Engine.len := Within.get.bind fun _ => Within.pure _

omit [Codec] in
theorem range_idle (now : Int64) : Within Inner.Idle (Engine.range now) := Within.get.bind fun _ => Within.pure _

omit [Codec] in
theorem keysMatching_idle (pattern : String) (now : Int64) : Within Inner.Idle (Engine.keysMatching pattern now) :=
  Within.get.bind fun _ => Within.pure _

omit [Codec] in
theorem watchConflict_idle (watched : List WatchedKey) (now : Int64) :
    Within Inner.Idle (Engine.watchConflict watched now) := Within.changed fun w _ => live_idle w.key now

omit [Codec] in
theorem txnEnd_idle : Within Inner.Idle txnEnd := fun i => .single (.account i.txnEnd_plain.symm)

omit [Codec] in
theorem txnBegin_idle : Within Inner.Idle txnBegin := fun _ => .single (.account rfl)

omit [Codec] in
theorem checkRoom_idle (keys : List String) (now : Int64) : Within Inner.Idle (Engine.checkRoom keys now) := by
  refine Within.get.bind fun i => ?_
  dsimp only
  split
  · exact Within.pure ()
  · exact Within.throw _

end Engine

namespace Front

/-- A step of the server in which the session writes nothing. -/
inductive Server.Idle : Server → Server → Prop
  | others (s : Server) (change : Change) : Idle s (s.apply change)
  | engine {s : Server} {ws : String} {i : Inner} (h : (s.engines ws).Idle i) : Idle s (s.set ws i)
  | aside {s t : Server} (hengines : t.engines = s.engines) (hsent : t.sent = s.sent)
      (hreplica : t.replicaOf = s.replicaOf) (htouched : t.touched = s.touched) : Idle s t

theorem Server.apply_resets (s : Server) (change : Change) (ws : String) :
    ((s.apply change).engines ws).resets = (s.engines ws).resets := by
  have hset {v : String} {i : Inner} (hi : i.resets = (s.engines v).resets) :
      ((s.set v i).engines ws).resets = (s.engines ws).resets := by
    unfold Server.set
    dsimp only
    split
    · next h => rw [hi, h]
    · rfl
  cases change with
  | put v key value expiresAt msgpack clock nonce =>
      have hacts : Acts (· = key) (clock.now 4) (KivaDb.put key value expiresAt msgpack clock nonce) :=
        put_acts value msgpack
      have hput := hacts.resets (s.engines v)
      simp only [Server.apply]
      cases h : KivaDb.put key value expiresAt msgpack clock nonce (s.engines v) with
      | ok a i => exact hset (left_of_ok h ▸ hput)
      | error e i => exact hset (left_of_error h ▸ hput)
  | delete v key clock nonce =>
      have hacts : Acts (· = key) (clock.now 0) (KivaDb.delete key clock nonce) := delete_acts
      have hdelete := hacts.resets (s.engines v)
      simp only [Server.apply]
      cases h : KivaDb.delete key clock nonce (s.engines v) with
      | ok found i => cases found <;> exact hset (left_of_ok h ▸ hdelete)
      | error e i => exact hset (left_of_error h ▸ hdelete)

theorem Server.apply_aside (s : Server) (change : Change) :
    (s.apply change).sent = s.sent ∧ (s.apply change).replicaOf = s.replicaOf := by
  cases change with
  | put v key value expiresAt msgpack clock nonce =>
      simp only [Server.apply]
      cases KivaDb.put key value expiresAt msgpack clock nonce (s.engines v) <;> exact ⟨rfl, rfl⟩
  | delete v key clock nonce =>
      simp only [Server.apply]
      cases KivaDb.delete key clock nonce (s.engines v) with
      | ok found i => cases found <;> exact ⟨rfl, rfl⟩
      | error e i => exact ⟨rfl, rfl⟩

/-- What a step that writes nothing leaves as it is. -/
theorem Server.Idle.keeps {s t : Server} (h : s.Idle t) :
    t.sent = s.sent ∧ t.replicaOf = s.replicaOf ∧ ∀ ws, (t.engines ws).resets = (s.engines ws).resets := by
  cases h with
  | others change => exact ⟨(s.apply_aside change).1, (s.apply_aside change).2, s.apply_resets change⟩
  | @engine v i h =>
      refine ⟨rfl, rfl, fun ws => ?_⟩
      unfold Server.set
      dsimp only
      split
      · next hws => rw [h.resets, hws]
      · rfl
  | aside hengines hsent hreplica _ => exact ⟨hsent, hreplica, fun ws => by rw [hengines]⟩

def Site.Idle (s t : Site) : Prop := s.server.Idle t.server

theorem idle_keeps {s t : Site} (h : ReflTransGen Site.Idle s t) :
    t.server.sent = s.server.sent ∧ t.server.replicaOf = s.server.replicaOf ∧
      ∀ ws, (t.server.engines ws).resets = (s.server.engines ws).resets := by
  induction h with
  | refl => exact ⟨rfl, rfl, fun _ => rfl⟩
  | tail _ hstep ih =>
      obtain ⟨h1, h2, h3⟩ := Server.Idle.keeps hstep
      exact ⟨h1.trans ih.1, h2.trans ih.2.1, fun ws => (h3 ws).trans (ih.2.2 ws)⟩

/-- The session is the same but for what its open transaction keeps back. -/
def Session.Buffers (s t : Session) : Prop :=
  t = s ∨ ∃ txn writes, s.txn = some txn ∧ t = { s with txn := some { txn with writes } }

namespace Session.Buffers

variable {s t u : Session}

omit [External] [Codec] [Vectors] in
theorem trans (h : s.Buffers t) (h' : t.Buffers u) : s.Buffers u := by
  obtain rfl | ⟨txn, writes, htxn, rfl⟩ := h
  · exact h'
  · obtain rfl | ⟨txn', writes', htxn', rfl⟩ := h'
    · exact .inr ⟨txn, writes, htxn, rfl⟩
    · obtain rfl := Option.some.inj htxn'
      exact .inr ⟨txn, writes', htxn, rfl⟩

omit [External] [Codec] [Vectors] in
theorem same (h : s.Buffers t) : t.ws = s.ws ∧ t.watch = s.watch := by
  obtain rfl | ⟨txn, writes, -, rfl⟩ := h
  · exact ⟨rfl, rfl⟩
  · exact ⟨rfl, rfl⟩

end Session.Buffers

/-- A step in which the session writes nothing but to the buffer of its open
transaction. -/
def Site.Quiet (s t : Site) : Prop := s.Idle t ∧ s.sess.Buffers t.sess

/-- A step in which the session writes nothing at all. -/
def Site.Looks (s t : Site) : Prop := s.Idle t ∧ t.sess = s.sess

theorem quiet_of_looks {s t : Site} (h : ReflTransGen Site.Looks s t) : ReflTransGen Site.Quiet s t :=
  ReflTransGen.mono (fun _ _ h => ⟨h.1, .inl h.2⟩) _ _ h

theorem looks_sess {s t : Site} (h : ReflTransGen Site.Looks s t) : t.sess = s.sess := by
  induction h with
  | refl => rfl
  | tail _ hstep ih => exact hstep.2.trans ih

omit [Codec] in
theorem Server.set_set (s : Server) (ws : String) (i j : Inner) : (s.set ws i).set ws j = s.set ws j := by
  unfold Server.set
  congr 1
  funext v
  dsimp only
  split <;> rfl

theorem pause_looks : Within Site.Looks pause := by
  intro s
  have hothers (changes : List Change) (u : Site) :
      ReflTransGen Site.Looks u { u with server := changes.foldl Server.apply u.server } := by
    induction changes generalizing u with
    | nil => exact .refl
    | cons c cs ih =>
        have hstep : Site.Looks u { u with server := u.server.apply c } := ⟨.others u.server c, rfl⟩
        exact .head hstep (ih { u with server := u.server.apply c })
  exact (hothers (s.moments 0).others s).tail ⟨.aside rfl rfl rfl rfl, rfl⟩

theorem require_looks (r : Result Unit) : Within Site.Looks (require r) := by
  cases r with
  | ok a => exact Within.pure ()
  | error e => exact Within.throw e

theorem set_looks {s : Site} {ws : String} {j : Inner} (hj : ReflTransGen Inner.Idle (s.server.engines ws) j) :
    ReflTransGen Site.Looks s (s.set ws j) := by
  induction hj with
  | refl =>
      refine .single ⟨.aside ?_ rfl rfl rfl, rfl⟩
      rw [Site.set, Server.set_self]
  | @tail j k _ hstep ih =>
      have hengine : (s.set ws j).server.engines ws = j := if_pos rfl
      have hidle : Server.Idle (s.server.set ws j) ((s.server.set ws j).set ws k) := .engine (hengine.symm ▸ hstep)
      rw [Server.set_set] at hidle
      exact ih.tail ⟨hidle, rfl⟩

theorem onEngine_looks {α : Type} {m : M α} (hm : Within Inner.Idle m) (ws : String) :
    Within Site.Looks (onEngine ws m) := by
  intro s
  have hleft := hm (s.server.engines ws)
  unfold left onEngine
  cases h : m (s.server.engines ws) with
  | ok a i => exact set_looks (left_of_ok h ▸ hleft)
  | error e i => exact set_looks (left_of_error h ▸ hleft)

theorem kvGet_looks (key : String) : Within Site.Looks (kvGet key) := by
  refine pause_looks.bind fun m => Within.get.bind fun s => (require_looks _).bind fun _ => ?_
  split
  · exact Within.pure _
  · exact Within.pure none
  · refine (onEngine_looks (Engine.get_idle _ _) _).bind fun r => ?_
    split
    · exact Within.pure _
    · exact Within.pure none

theorem kvType_looks (key : String) : Within Site.Looks (kvType key) := by
  refine pause_looks.bind fun m => Within.get.bind fun s => (require_looks _).bind fun _ => ?_
  split
  · exact Within.pure _
  · exact Within.pure none
  · exact (onEngine_looks (Engine.live_idle _ _) _).bind fun _ => Within.pure _

theorem commitRoom_looks (txn : Txn) : Within Site.Looks (commitRoom txn) := by
  refine pause_looks.bind fun m => Within.get.bind fun s => (require_looks _).bind fun _ => ?_
  exact (onEngine_looks (Engine.checkRoom_idle _ _) _).bind fun _ => Within.pure _

theorem ensureWorkspace_looks (ws : String) : Within Site.Looks (ensureWorkspace ws) := by
  refine pause_looks.bind fun m => Within.get.bind fun site => ?_
  split
  · exact Within.pure ()
  · exact (require_looks m.opens).bind fun _ => fun _ => .single ⟨.aside rfl rfl rfl rfl, rfl⟩

/-- In a transaction writes are kept back. -/
theorem apply_open (ops : List BatchOp) {s : Site} {txn : Txn} (h : s.sess.txn = some txn) :
    apply ops s = (do require s.after.writable; buffer ops txn : S Unit) s.after := by
  obtain ⟨⟨user, ws, wsPriv, open_, wrote, watch⟩, server, moments⟩ := s
  obtain rfl : open_ = some txn := h
  rfl

theorem apply_quiet (ops : List BatchOp) {s : Site} (h : s.sess.txn.isSome = true) :
    ReflTransGen Site.Quiet s (left (apply ops) s) := by
  obtain ⟨txn, htxn⟩ := Option.isSome_iff_exists.mp h
  have hset : Site.Quiet s.after
      { s.after with sess := { s.sess with txn := some { txn with writes := (bufferAll ops txn.writes).2 } } } :=
    ⟨.aside rfl rfl rfl rfl, .inr ⟨txn, _, htxn, rfl⟩⟩
  have hbuffer : ReflTransGen Site.Quiet s.after (left (buffer ops txn) s.after) :=
    (ReflTransGen.single hset).trans (quiet_of_looks (require_looks (bufferAll ops txn.writes).1 _))
  have hleft : left (apply ops) s = left (do require s.after.writable; buffer ops txn : S Unit) s.after := by
    unfold left
    rw [apply_open ops htxn]
  rw [hleft]
  refine (quiet_of_looks (pause_looks s)).trans ?_
  cases s.after.writable with
  | ok _ => exact hbuffer
  | error e => exact .refl

theorem idle_of_looks {α : Type} {m : S α} (hm : Within Site.Looks m) : Within Site.Idle m :=
  hm.mono fun _ _ h => h.1

theorem pause_idle : Within Site.Idle pause := idle_of_looks pause_looks

theorem onEngine_idle {α : Type} {m : M α} (hm : Within Inner.Idle m) (ws : String) :
    Within Site.Idle (onEngine ws m) := idle_of_looks (onEngine_looks hm ws)

theorem setSession_idle (f : Session → Session) : Within Site.Idle (setSession f) := fun _ => .single (.aside rfl rfl rfl rfl)

theorem begin_idle : Within Site.Idle begin_ := by
  refine pause_idle.bind fun m => Within.get.bind fun s => (idle_of_looks (require_looks _)).bind fun _ => ?_
  split
  · exact Within.throw _
  · exact (onEngine_idle Engine.txnBegin_idle _).bind fun _ => setSession_idle _

omit [Codec] in
theorem Site.writable_congr {s t : Site} (hsess : t.sess.check .write = s.sess.check .write)
    (hreplica : t.server.replicaOf = s.server.replicaOf) : t.writable = s.writable := by
  unfold Site.writable
  rw [hsess, hreplica]

theorem Site.after_writable (s : Site) : s.after.writable = s.writable :=
  Site.writable_congr rfl (idle_keeps (pause_idle s)).2.1

omit [Codec] in
theorem require_ok {r : Result Unit} {s t : Site} (h : require r s = .ok () t) : r = .ok () ∧ t = s := by
  cases r with
  | ok a => exact ⟨rfl, (EStateM.Result.ok.inj h).2.symm⟩
  | error e => exact nomatch h

theorem begin_eq (s : Site) : begin_ s = (do
    require s.writable
    match s.sess.txn with
    | some _ => throw (.invalid "a transaction is already active")
    | none =>
        let beginSeq ← onEngine s.sess.ws txnBegin
        setSession fun s => { s with txn := some { beginSeq, writes := ∅, savepoints := [] } } : S Unit) s.after := by
  rw [← s.after_writable]
  rfl

/-- A transaction begins with nothing kept back. -/
theorem begin_ok {s t : Site} (h : begin_ s = .ok () t) :
    ∃ beginSeq, t.sess = { s.sess with txn := some { beginSeq, writes := ∅, savepoints := [] } } := by
  rw [begin_eq] at h
  obtain ⟨_, u, hrequire, h⟩ := bind_ok.mp h
  obtain ⟨-, rfl⟩ := require_ok hrequire
  cases htxn : s.sess.txn with
  | some txn =>
      rw [htxn] at h
      exact nomatch h
  | none =>
      rw [htxn] at h
      obtain ⟨-, rfl⟩ := EStateM.Result.ok.inj h
      exact ⟨_, rfl⟩

theorem begin_succeeds {s : Site} (htxn : s.sess.txn = none) (hwritable : s.writable = .ok ()) :
    ∃ t, begin_ s = .ok () t := by
  rw [begin_eq, hwritable, htxn]
  exact ⟨_, rfl⟩

theorem endOn_looks (ws : String) : Within Site.Looks (endOn ws) :=
  pause_looks.bind fun _ => onEngine_looks Engine.txnEnd_idle ws

/-- Nothing of the transaction is left. -/
theorem rollback_ok (s : Site) : ∃ t, rollback s = .ok () t ∧ t.sess = { s.sess with txn := none } := by
  cases htxn : s.sess.txn with
  | none =>
      refine ⟨s, ?_, ?_⟩
      · obtain ⟨⟨user, ws, wsPriv, txn, wrote, watch⟩, server, moments⟩ := s
        obtain rfl : txn = none := htxn
        rfl
      · rw [← htxn]
  | some txn =>
      obtain ⟨t, hend⟩ : ∃ t, endOn s.sess.ws { s with sess := { s.sess with txn := none } } = .ok () t := ⟨_, rfl⟩
      refine ⟨t, ?_, looks_sess ((endOn_looks _).ok hend)⟩
      obtain ⟨⟨user, ws, wsPriv, open_, wrote, watch⟩, server, moments⟩ := s
      obtain rfl : open_ = some txn := htxn
      exact hend

theorem endOn_idle (ws : String) : Within Site.Idle (endOn ws) := idle_of_looks (endOn_looks ws)

theorem rollback_idle : Within Site.Idle rollback := by
  refine Within.get.bind fun s => ?_
  dsimp only
  split
  · exact Within.pure ()
  · exact (setSession_idle _).bind fun _ => endOn_idle _

theorem unwatch_idle : Within Site.Idle unwatch := by
  refine pause_idle.bind fun _ => Within.get.bind fun s => ?_
  split
  · exact Within.pure ()
  · exact (setSession_idle _).bind fun _ => onEngine_idle Engine.txnEnd_idle _

theorem watchedOf_idle (s : Session) : Within Site.Idle (watchedOf s) := by
  refine pause_idle.bind fun m => ?_
  split
  · exact Within.pure _
  · split
    · exact Within.pure _
    · exact (onEngine_idle (Engine.watchConflict_idle _ _) _).bind fun _ => Within.pure _

/-- A transaction that does not commit writes nothing. -/
theorem commitOps_error_idle {txn : Txn} {same : Option (List WatchedKey)} {other : Option String} {s t : Site}
    {e : KivaError} (h : commitOps txn same other s = .error e t) : ReflTransGen Site.Idle s t := by
  obtain h | ⟨ws, u, hroom, h⟩ := bind_error.mp h
  · exact (idle_of_looks (commitRoom_looks txn)).error h
  · refine ((idle_of_looks (commitRoom_looks txn)).ok hroom).trans ?_
    cases other with
    | some key => exact (Within.throw _ : Within Site.Idle _).error h
    | none =>
        obtain h | ⟨m, v, hpause, h⟩ := bind_error.mp h
        · exact pause_idle.error h
        · refine (pause_idle.ok hpause).trans ?_
          unfold onEngine at h
          split at h
          · exact absurd h (by simp)
          · next e' i hbatch =>
              obtain ⟨-, rfl⟩ := EStateM.Result.error.inj h
              refine ReflTransGen.mono (fun _ _ h => h.1) _ _ (set_looks ?_)
              rw [applyBatchWatched_error hbatch]
              exact ReflTransGen.mono (fun _ _ h => .drop h) _ _ (within_stageBatch _ _ _ _ _ _)

theorem commitTaken_error_idle {sess : Session} {txn : Txn} {s t : Site} {e : KivaError}
    (h : commitTaken sess txn s = .error e t) : ReflTransGen Site.Idle s t := by
  obtain h | ⟨⟨same, other⟩, u, hwatched, h⟩ := bind_error.mp h
  · exact (watchedOf_idle sess).error h
  · refine ((watchedOf_idle sess).ok hwatched).trans ?_
    obtain ⟨v, hend⟩ : ∃ v, endOn sess.ws (left (commitOps txn same other) u) = .ok () v := ⟨_, rfl⟩
    cases hops : commitOps txn same other u with
    | ok _ w =>
        rw [left_of_ok hops] at hend
        simp only [outcome, bind, EStateM.bind, hops, hend] at h
        cases (show EStateM.Result.ok _ _ = EStateM.Result.error e t from h)
    | error e' w =>
        rw [left_of_error hops] at hend
        simp only [outcome, bind, EStateM.bind, hops, hend] at h
        obtain ⟨-, rfl⟩ := throw_error.mp h
        exact (commitOps_error_idle hops).trans ((endOn_idle _).ok hend)

theorem commit_error_idle {s t : Site} {e : KivaError} (h : commit s = .error e t) : ReflTransGen Site.Idle s t := by
  cases htxn : s.sess.txn with
  | none =>
      have hcommit : commit s = (throw (.invalid "no active transaction") : S Nat) s := by
        obtain ⟨⟨user, ws, wsPriv, txn, wrote, watch⟩, server, moments⟩ := s
        obtain rfl : txn = none := htxn
        rfl
      exact (Within.throw _ : Within Site.Idle _).error (hcommit.symm.trans h)
  | some txn =>
      have hcommit : commit s = (do
          setSession fun s => { s with txn := none }
          commitTaken s.sess txn : S Nat) s := by
        obtain ⟨⟨user, ws, wsPriv, open_, wrote, watch⟩, server, moments⟩ := s
        obtain rfl : open_ = some txn := htxn
        rfl
      obtain h | ⟨_, u, hset, h⟩ := bind_error.mp (hcommit.symm.trans h)
      · exact (setSession_idle _).error h
      · exact ((setSession_idle _).ok hset).trans (commitTaken_error_idle h)

end Front

end KivaDb
