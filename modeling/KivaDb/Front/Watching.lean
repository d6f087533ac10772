import KivaDb.Engine.Plain
import KivaDb.Front.Session

namespace KivaDb.Front

open Lib.LittleEndian Lib.Utf8 Lib.Ignoring Crypt

variable [External] [Chrono] [Codec] [Vectors]

/-- The session watches `w` instead. -/
def Site.watching (w : Option (String × List WatchedKey)) (s : Site) : Site :=
  { s with sess := { s.sess with watch := w } }

section Indifferent

variable (w : Option (String × List WatchedKey))

theorem pause_watching : Ignores (Site.watching w) pause := fun _ => rfl

omit [Codec] in
theorem require_watching (r : Result Unit) : Ignores (Site.watching w) (require r) := by
  cases r with
  | ok a => exact Ignores.pure ()
  | error e => exact Ignores.throw e

omit [Codec] in
theorem onEngine_watching {α : Type} (ws : String) (m : M α) : Ignores (Site.watching w) (onEngine ws m) := by
  intro s
  show onEngine ws m (s.watching w) = _
  unfold onEngine
  rw [show (s.watching w).server = s.server from rfl]
  cases m (s.server.engines ws) with
  | ok a i => rfl
  | error e i => rfl

omit [Codec] in
theorem setSession_watching {f : Session → Session} (hf : ∀ s, f { s with watch := w } = { f s with watch := w }) :
    Ignores (Site.watching w) (setSession f) := by
  refine Ignores.modify fun s => ?_
  show ({ s with sess := f { s.sess with watch := w } } : Site) = _
  rw [hf]
  rfl

theorem kvGet_watching (key : String) : Ignores (Site.watching w) (kvGet key) := by
  refine (pause_watching w).bind fun m => Ignores.get_bind (fun _ => rfl) fun s => ?_
  refine (require_watching w _).bind fun _ => ?_
  split
  · exact Ignores.pure _
  · exact Ignores.pure none
  · refine (onEngine_watching w _ _).bind fun r => ?_
    split
    · exact Ignores.pure _
    · exact Ignores.pure none

theorem kvType_watching (key : String) : Ignores (Site.watching w) (kvType key) := by
  refine (pause_watching w).bind fun m => Ignores.get_bind (fun _ => rfl) fun s => ?_
  refine (require_watching w _).bind fun _ => ?_
  split
  · exact Ignores.pure _
  · exact Ignores.pure none
  · exact (onEngine_watching w _ _).bind fun _ => Ignores.pure _

theorem write_watching (ws : String) (ops : List BatchOp) (m : Moment) : Ignores (Site.watching w) (write ws ops m) := by
  unfold write
  split
  · exact (onEngine_watching w _ _).bind fun _ => Ignores.pure ()
  · exact (onEngine_watching w _ _).bind fun _ => Ignores.pure ()
  · exact onEngine_watching w _ _

theorem apply_watching (ops : List BatchOp) : Ignores (Site.watching w) (apply ops) := by
  refine (pause_watching w).bind fun m => Ignores.get_bind (fun _ => rfl) fun site => ?_
  refine (require_watching w _).bind fun _ => ?_
  split
  · exact (setSession_watching w fun _ => rfl).bind fun _ => require_watching w _
  · refine (onEngine_watching w _ _).bind fun _ => (setSession_watching w fun _ => rfl).bind fun _ => ?_
    exact (pause_watching w).bind fun m => write_watching w _ _ m

theorem begin_watching : Ignores (Site.watching w) begin_ := by
  refine (pause_watching w).bind fun m => Ignores.get_bind (fun _ => rfl) fun site => ?_
  refine (require_watching w _).bind fun _ => ?_
  split
  · exact Ignores.throw _
  · exact (onEngine_watching w _ _).bind fun _ => setSession_watching w fun _ => rfl

theorem endOn_watching (ws : String) : Ignores (Site.watching w) (endOn ws) :=
  (pause_watching w).bind fun _ => onEngine_watching w ws txnEnd

theorem rollback_watching : Ignores (Site.watching w) rollback := by
  refine Ignores.get_bind (fun _ => rfl) fun site => ?_
  dsimp only
  split
  · exact Ignores.pure ()
  · exact (setSession_watching w fun _ => rfl).bind fun _ => endOn_watching w _

theorem enter_watching (ws : String) (level : Priv) : Ignores (Site.watching w) (enter ws level) :=
  (pause_watching w).bind fun m => (require_watching w m.opens).bind fun _ => setSession_watching w fun _ => rfl

omit [Codec] in
theorem leave_watching : Ignores (Site.watching w) leave := setSession_watching w fun _ => rfl

theorem switchWorkspace_watching (ws : String) : Ignores (Site.watching w) (switchWorkspace ws) := by
  refine Ignores.get_bind (fun _ => rfl) fun site => ?_
  split
  · exact Ignores.throw _
  · split
    · exact Ignores.throw _
    · split
      · exact Ignores.throw _
      · split
        · exact enter_watching w ws .write
        · split
          · exact Ignores.throw _
          · exact enter_watching w ws _

theorem ensureWorkspace_watching (ws : String) : Ignores (Site.watching w) (ensureWorkspace ws) := by
  refine (pause_watching w).bind fun m => Ignores.get_bind (fun _ => rfl) fun site => ?_
  split
  · exact Ignores.pure ()
  · exact (require_watching w m.opens).bind fun _ => Ignores.modify fun _ => rfl

theorem login_watching (name password : String) : Ignores (Site.watching w) (login name password) := by
  refine Ignores.get_bind (fun _ => rfl) fun site => ?_
  split
  · exact Ignores.throw _
  · refine (rollback_watching w).bind fun _ => (setSession_watching w fun _ => rfl).bind fun _ => ?_
    split
    · exact enter_watching w _ _
    · exact leave_watching w

end Indifferent

/-- The server without its account of open transactions and watches. -/
def Server.plain (s : Server) : Server := { s with engines := fun ws => (s.engines ws).plain }

/-- What is left of the session and its server once the watches are forgotten. -/
def Site.plain (s : Site) : Site := { s.watching none with server := s.server.plain }

omit [Codec] in
theorem Server.set_self (s : Server) (ws : String) : s.set ws (s.engines ws) = s := by
  unfold Server.set
  congr 1
  funext v
  split
  · next h => rw [h]
  · rfl

omit [Codec] in
theorem Server.set_plain (s : Server) (ws : String) (i : Inner) : (s.set ws i).plain = s.plain.set ws i.plain := by
  unfold Server.plain Server.set
  congr 1
  funext v
  dsimp only
  split <;> rfl

theorem Server.apply_plain (s : Server) (change : Change) : s.plain.apply change = (s.apply change).plain := by
  have heng (ws : String) : s.plain.engines ws = (s.engines ws).plain := rfl
  cases change with
  | put ws key value expiresAt msgpack clock nonce =>
      have hput : KivaDb.put key value expiresAt msgpack clock nonce (s.engines ws).plain = _ :=
        put_plain key value expiresAt msgpack clock nonce (s.engines ws)
      simp only [Server.apply, heng, hput]
      cases KivaDb.put key value expiresAt msgpack clock nonce (s.engines ws) with
      | ok a i =>
          simp only [mapState, ← Server.set_plain]
          rfl
      | error e i => exact (s.set_plain ws i).symm
  | delete ws key clock nonce =>
      have hdel : KivaDb.delete key clock nonce (s.engines ws).plain = _ := delete_plain key clock nonce (s.engines ws)
      simp only [Server.apply, heng, hdel]
      cases KivaDb.delete key clock nonce (s.engines ws) with
      | ok a i =>
          cases a with
          | true =>
              simp only [mapState, ← Server.set_plain]
              rfl
          | false => exact (s.set_plain ws i).symm
      | error e i => exact (s.set_plain ws i).symm

theorem Server.applyAll_plain (s : Server) (changes : List Change) :
    changes.foldl Server.apply s.plain = (changes.foldl Server.apply s).plain := by
  induction changes generalizing s with
  | nil => rfl
  | cons c cs ih => rw [List.foldl_cons, List.foldl_cons, Server.apply_plain, ih]

theorem pause_plain : Ignores Site.plain pause := by
  intro s
  show EStateM.Result.ok _ ({ s.plain with
    server := (s.moments 0).others.foldl Server.apply s.server.plain, moments := _ } : Site) = _
  rw [Server.applyAll_plain]
  rfl

/-- The site once an engine is left as `i`. -/
def Site.set (s : Site) (ws : String) (i : Inner) : Site := { s with server := s.server.set ws i }

omit [Codec] in
theorem Site.set_plain {s t : Site} (h : s.plain = t.plain) (ws : String) {i j : Inner} (hij : i.plain = j.plain) :
    (s.set ws i).plain = (t.set ws j).plain := by
  have hset (u : Site) (k : Inner) : (u.set ws k).plain = u.plain.set ws k.plain := by
    show ({ u.watching none with server := (u.server.set ws k).plain } : Site) = _
    rw [Server.set_plain]
    rfl
  rw [hset, hset, h, hij]

omit [Codec] in
/-- A call on an engine that looks the same without the account. -/
theorem onEngine_alike {α : Type} {ws : String} {m m' : M α} (hm : Alike Inner.plain m m') :
    Alike Site.plain (onEngine ws m) (onEngine ws m') := by
  intro s t h
  have heng : (s.server.engines ws).plain = (t.server.engines ws).plain :=
    congrArg (fun u : Site => u.server.engines ws) h
  have hst := hm _ _ heng
  unfold onEngine
  cases hs : m (s.server.engines ws) with
  | ok a i =>
      cases ht : m' (t.server.engines ws) with
      | ok b j =>
          simp only [hs, ht, mapState, EStateM.Result.ok.injEq] at hst ⊢
          exact ⟨hst.1, Site.set_plain h ws hst.2⟩
      | error e j => simp [hs, ht, mapState] at hst
  | error e i =>
      cases ht : m' (t.server.engines ws) with
      | ok b j => simp [hs, ht, mapState] at hst
      | error e' j =>
          simp only [hs, ht, mapState, EStateM.Result.error.injEq] at hst ⊢
          exact ⟨hst.1, Site.set_plain h ws hst.2⟩

omit [Codec] in
theorem onEngine_txnEnd_plain (ws : String) (s : Site) : ∃ t, onEngine ws txnEnd s = .ok () t ∧ t.plain = s.plain := by
  have hself : s.set ws (s.server.engines ws) = s := by
    unfold Site.set
    rw [Server.set_self]
  have hplain := Site.set_plain (rfl : s.plain = s.plain) ws (s.server.engines ws).txnEnd_plain
  rw [hself] at hplain
  exact ⟨_, rfl, hplain⟩

omit [Codec] in
/-- What a session does to its list of watched keys alone. -/
theorem setSession_hidden {f : Session → Session} (hf : ∀ s, { f s with watch := none } = { s with watch := none }) :
    Alike Site.plain (setSession f) (pure ()) := by
  intro s t h
  have hs : ({ s with sess := f s.sess } : Site).plain = s.plain := by
    unfold Site.plain Site.watching
    simp only [hf]
  show EStateM.Result.ok () ({ s with sess := f s.sess } : Site).plain = .ok () t.plain
  rw [hs, h]

theorem unwatch_plain : Alike Site.plain unwatch (do let _ ← pause; return ()) := by
  refine pause_plain.alike.bind fun _ => ?_
  rintro ⟨⟨user, ws, wsPriv, txn, wrote, watch⟩, server, moments⟩ t h
  cases watch with
  | none => exact congrArg (EStateM.Result.ok ()) h
  | some p =>
      obtain ⟨u, hu, hplain⟩ := onEngine_txnEnd_plain p.1 ⟨⟨user, ws, wsPriv, txn, wrote, none⟩, server, moments⟩
      show mapState Site.plain (onEngine p.1 txnEnd ⟨⟨user, ws, wsPriv, txn, wrote, none⟩, server, moments⟩) = _
      rw [hu]
      exact congrArg (EStateM.Result.ok ()) (hplain.trans h)

/-- What a WATCH comes to when watches do not count: a look at the keys. -/
def lookAt (ws : String) (keys : List String) : S Unit := do
  let _ ← pause
  let m ← pause
  let _ ← onEngine ws (do watchAll (m.clock.now 0) (← get).seq keys)
  let _ ← pause
  return ()

omit [Codec] in
theorem watch_alike (keys : List String) (now : Int64) :
    Alike Inner.plain (watch keys now) (do watchAll now (← get).seq keys) := by
  intro i j h
  rw [watch_plain]
  have hlook : Ignores Inner.plain (do watchAll now (← get).seq keys) :=
    Ignores.get_bind (fun _ => rfl) fun i => watchAll_plain now i.seq keys
  exact hlook.alike i j h

theorem watchMore_plain (ws : String) (keys : List String) (w : List WatchedKey) :
    Alike Site.plain (watchMore ws keys w) (lookAt ws keys) := by
  refine pause_plain.alike.bind fun _ => pause_plain.alike.bind fun m => ?_
  refine (onEngine_alike (watch_alike keys _)).bind fun more => ?_
  rw [endOn, bind_assoc]
  refine pause_plain.alike.bind fun _ => ?_
  exact Alike.bind_left (fun s => ⟨(), onEngine_txnEnd_plain ws s⟩) fun _ => setSession_hidden fun _ => rfl

theorem watchAnew_plain (ws : String) (keys : List String) :
    Alike Site.plain (watchAnew ws keys) (lookAt ws keys) := by
  have hlook : lookAt ws keys = (do let _ ← pause; return ()) >>= fun _ => (do
      let m ← pause
      let _ ← onEngine ws (do watchAll (m.clock.now 0) (← get).seq keys)
      let _ ← pause
      return ()) := by
    rw [bind_assoc]
    rfl
  rw [hlook]
  refine unwatch_plain.bind fun _ => pause_plain.alike.bind fun m => ?_
  refine (onEngine_alike (watch_alike keys _)).bind fun more => pause_plain.alike.bind fun _ => ?_
  exact setSession_hidden fun _ => rfl

/-- A WATCH of a session. -/
def watchFrom (keys : List String) (s : Session) : S Unit :=
  match s.watch.filter fun p => p.1 = s.ws with
  | some (ws, w) => watchMore ws keys w
  | none => watchAnew s.ws keys

theorem watchKeys_eq (keys : List String) (s : Site) : watchKeys keys s = watchFrom keys s.sess s := rfl

theorem watchKeys_look (keys : List String) {s t : Site} (h : s.plain = t.plain) :
    mapState Site.plain (watchKeys keys s) = mapState Site.plain (lookAt s.sess.ws keys t) := by
  rw [watchKeys_eq, watchFrom]
  cases hw : s.sess.watch.filter fun p => p.1 = s.sess.ws with
  | none => exact watchAnew_plain s.sess.ws keys s t h
  | some p =>
      obtain ⟨ws, w⟩ := p
      have hws : ws = s.sess.ws := by simpa using (Option.filter_eq_some_iff.mp hw).2
      subst hws
      exact watchMore_plain s.sess.ws keys w s t h

theorem watchKeys_plain (keys : List String) : Alike Site.plain (watchKeys keys) (watchKeys keys) := by
  intro s t h
  have hws : s.plain.sess.ws = t.plain.sess.ws := by rw [h]
  rw [watchKeys_look keys h, watchKeys_look keys (rfl : t.plain = t.plain), show s.sess.ws = t.sess.ws from hws]

/-- What a commit says when it finds that a watched key changed. -/
def changedError (key : String) : KivaError := .conflict s!"the watched key '{key}' changed"

theorem applyBatchWatched_changed {i j : Inner} {w : List WatchedKey} {key : String} {clock : Clock}
    (h : changed (clock.now 0) w i = .ok (some key) j) (ops : List BatchOp) (beginSeq : Option Nat)
    (draws : Nat → Draw) : applyBatchWatched ops beginSeq (some w) clock draws i = .error (changedError key) j := by
  simp only [applyBatchWatched, stageBatch, checkBatch, checkWatched, bind, EStateM.bind, h]
  rfl

theorem commitRoom_watching (w : Option (String × List WatchedKey)) (txn : Txn) :
    Ignores (Site.watching w) (commitRoom txn) := by
  refine (pause_watching w).bind fun m => Ignores.get_bind (fun _ => rfl) fun site => ?_
  exact (require_watching w _).bind fun _ => (onEngine_watching w _ _).bind fun _ => Ignores.pure _

/-- The session once its transaction is taken from it. -/
def Site.taken (s : Site) : Site := { s with sess := { s.sess with txn := none } }

/-- The transaction of the session passes the checks that come before its batch,
which is for `ws` then. -/
def Site.Reaches (s : Site) (txn : Txn) (ws : String) (t : Site) : Prop :=
  (do let _ ← pause; commitRoom txn : S String) s.taken = .ok ws t

def Site.Room (s : Site) : Prop := ∃ txn ws t, s.sess.txn = some txn ∧ s.Reaches txn ws t

/-- Its batch is refused when a watched key of the workspace has changed by then. -/
theorem commit_conflict {s t : Site} {txn : Txn} {ws : String} {w : List WatchedKey} {key : String} {i : Inner}
    (htxn : s.sess.txn = some txn) (hwatch : s.sess.watch = some (s.sess.ws, w)) (hroom : s.Reaches txn ws t)
    (hchanged : changed ((t.moments 0).clock.now 0) w (t.after.server.engines ws) = .ok (some key) i) :
    ∃ u, commit s = .error (changedError key) u := by
  have hwatched : watchedOf s.sess s.taken = .ok (some w, none) s.taken.after := by
    unfold watchedOf
    rw [hwatch]
    show (if s.sess.ws = s.sess.ws then _ else _ : S _) s.taken.after = _
    rw [if_pos rfl]
    rfl
  have hbatch := applyBatchWatched_changed hchanged txn.ops (some txn.beginSeq) (t.moments 0).draws
  have hroom' : commitRoom txn s.taken.after = .ok ws t := hroom
  have hops : ∃ u, commitOps txn (some w) none s.taken.after = .error (changedError key) u := by
    simp only [commitOps, bind, EStateM.bind, hroom', pause, onEngine, hbatch]
    exact ⟨_, rfl⟩
  obtain ⟨u, hu⟩ := hops
  have htaken : commit s = commitTaken s.sess txn s.taken := by
    obtain ⟨⟨user, ws', wsPriv, open_, wrote, watch⟩, server, moments⟩ := s
    obtain rfl : open_ = some txn := htxn
    rfl
  rw [htaken]
  simp only [commitTaken, bind, EStateM.bind, hwatched, outcome, hu]
  exact ⟨_, rfl⟩

end KivaDb.Front
