import KivaDb.Front.Idle

namespace KivaDb

open Lib.LittleEndian Lib.Utf8 Lib.Fallible Crypt Relation

variable [External] [Chrono] [Codec] [Vectors]

/-- The value a put writes once its schemas, the unique indexes and the vectors
admit it. -/
def admitted (key : String) (value : Value) (clock : Clock) : M Value := do
  let value := (← conformed key value (clock.now 1) (clock.now 2)).getD value
  let doc := DocView.of value
  refuse ((← get).checkUnique [(key, doc)] (clock.now 3))
  refuse ((← get).checkVectorRoom ((← get).vectorGrowth key doc))
  return value

theorem put_eq (key : String) (value : Value) (ex : Int64) (msgpack : Bool) (clock : Clock) (nonce : Draw) :
    put key value ex msgpack clock nonce =
      admitted key value clock >>= fun value =>
        putLocked key value ex msgpack (clock.secs 0) (clock.now 4) nonce := by
  simp only [put, admitted, bind_assoc, pure_bind]

theorem admitted_drops (key : String) (value : Value) (clock : Clock) :
    Within (Drop (clock.now 2)) (admitted key value clock) := by
  refine (Within.conformed (within_live key _) value _).bind fun v => ?_
  refine Within.get.bind fun _ => (Within.refuse _).bind fun _ => ?_
  exact Within.get.bind fun _ => Within.get.bind fun _ => (Within.refuse _).bind fun _ => Within.pure _

namespace Inner

omit [Codec] in
theorem idle_of_drops {now : Int64} {i j : Inner} (h : ReflTransGen (Drop now) i j) : ReflTransGen Idle i j :=
  ReflTransGen.mono (fun _ _ h => .drop h) _ _ h

omit [Codec] in
theorem idle_emitted {i j : Inner} (h : ReflTransGen Idle i j) : j.emitted = i.emitted := by
  induction h with
  | refl => rfl
  | tail _ hstep ih =>
      cases hstep with
      | drop h => rw [h.frame, ← ih]
      | account h =>
          rw [← ih]
          exact (congrArg Inner.emitted h).symm

end Inner

section

variable {key : String} {value : Value} {ex : Int64} {msgpack : Bool} {clock : Clock} {nonce : Draw} {i j : Inner}

theorem put_error_idle {e : KivaError} (h : put key value ex msgpack clock nonce i = .error e j) :
    ReflTransGen Inner.Idle i j := by
  rw [put_eq] at h
  obtain h | ⟨v, k, hadmitted, h⟩ := bind_error.mp h
  · exact Inner.idle_of_drops ((admitted_drops key value clock).error h)
  · refine (Inner.idle_of_drops ((admitted_drops key value clock).ok hadmitted)).trans ?_
    obtain rfl | rfl := putLocked_error h
    · exact .refl
    · exact Inner.idle_of_drops (dropExpired_drops k key _)

omit [Codec] in
theorem delete_error_idle {e : KivaError} (h : delete key clock nonce i = .error e j) :
    ReflTransGen Inner.Idle i j := by
  rw [delete_error h]
  exact Inner.idle_of_drops (dropExpired_drops i key _)

theorem delete_false_idle (h : delete key clock nonce i = .ok false j) : ReflTransGen Inner.Idle i j := by
  obtain ⟨-, -, rfl⟩ | ⟨e, rec, hfound, -⟩ := delete_ok h
  · exact Inner.idle_of_drops (dropExpired_drops i key _)
  · cases hfound

end

/-- The engine carries out the write. -/
def Inner.Writes (i j : Inner) : BatchOp → Prop
  | .put key value ex msgpack => ∃ clock nonce created, KivaDb.put key value ex msgpack clock nonce i = .ok created j
  | .del key => ∃ clock nonce, KivaDb.delete key clock nonce i = .ok true j

theorem Inner.Writes.emitted {i j : Inner} {op : BatchOp} (h : i.Writes j op) :
    j.emitted.length = i.emitted.length + 1 := by
  have hcommit {k : Inner} {p : Staged × Bytes} (hidle : ReflTransGen Idle i k) :
      (k.commit [p]).emitted.length = i.emitted.length + 1 := by
    rw [Inner.commit_frame, List.length_append, idle_emitted hidle]
    rfl
  cases op with
  | put key value ex msgpack =>
      obtain ⟨clock, nonce, created, h⟩ := h
      rw [put_eq] at h
      obtain ⟨v, k, hadmitted, h⟩ := bind_ok.mp h
      obtain ⟨rec, entry, raw, -, -, -, rfl⟩ := putLocked_ok h
      have hadmits := idle_of_drops ((admitted_drops key value clock).ok hadmitted)
      exact hcommit (hadmits.trans (idle_of_drops (dropExpired_drops k key _)))
  | del key =>
      obtain ⟨clock, nonce, h⟩ := h
      obtain ⟨hfound, -⟩ | ⟨e, rec, -, -, -, -, rfl⟩ := delete_ok h
      · exact nomatch hfound
      · exact hcommit (idle_of_drops (dropExpired_drops i key _))

/-- The engine carries out the writes one after the other, and does nothing else. -/
inductive Inner.Chain : List BatchOp → Inner → Inner → Prop
  | nil {i j : Inner} (h : ReflTransGen Idle i j) : Chain [] i j
  | cons {i i' j' j : Inner} {op : BatchOp} {ops : List BatchOp} (h : ReflTransGen Idle i i')
      (hop : i'.Writes j' op) (hops : Chain ops j' j) : Chain (op :: ops) i j

namespace Inner.Chain

variable {i j k : Inner} {ops ops' : List BatchOp}

theorem emitted (h : Chain ops i j) : j.emitted.length = i.emitted.length + ops.length := by
  induction h with
  | nil h => rw [idle_emitted h, List.length_nil, Nat.add_zero]
  | cons h hop _ ih => rw [ih, hop.emitted, idle_emitted h, List.length_cons, Nat.add_assoc, Nat.add_comm 1]

theorem idle_append (h : ReflTransGen Idle i j) (h' : Chain ops j k) : Chain ops i k := by
  cases h' with
  | nil h' => exact .nil (h.trans h')
  | cons h' hop hops => exact .cons (h.trans h') hop hops

theorem append (h : Chain ops i j) (h' : Chain ops' j k) : Chain (ops ++ ops') i k := by
  induction h with
  | nil h => exact idle_append h h'
  | cons h hop _ ih => exact .cons h hop (ih h')

end Inner.Chain

namespace Front

omit [Codec] in
theorem Server.set_idle {s : Server} {v : String} {i : Inner} (hi : ReflTransGen Inner.Idle (s.engines v) i)
    (ws : String) : ReflTransGen Inner.Idle (s.engines ws) ((s.set v i).engines ws) := by
  unfold Server.set
  dsimp only
  split
  · next hws => exact hws ▸ hi
  · exact .refl

/-- In a step of the server another client writes, or an engine at most drops keys
whose TTL has elapsed. -/
theorem Server.Idle.engines {s t : Server} (h : s.Idle t) :
    (∃ p, t.touched = s.touched ++ [p]) ∨
      t.touched = s.touched ∧ ∀ ws, ReflTransGen Inner.Idle (s.engines ws) (t.engines ws) := by
  cases h with
  | others change =>
      cases change with
      | put v key value ex msgpack clock nonce =>
          simp only [Server.apply]
          cases hput : KivaDb.put key value ex msgpack clock nonce (s.engines v) with
          | ok created i => exact .inl ⟨_, rfl⟩
          | error e i => exact .inr ⟨rfl, Server.set_idle (put_error_idle hput)⟩
      | delete v key clock nonce =>
          simp only [Server.apply]
          cases hdelete : KivaDb.delete key clock nonce (s.engines v) with
          | ok found i =>
              cases found with
              | true => exact .inl ⟨_, rfl⟩
              | false => exact .inr ⟨rfl, Server.set_idle (delete_false_idle hdelete)⟩
          | error e i => exact .inr ⟨rfl, Server.set_idle (delete_error_idle hdelete)⟩
  | engine h => exact .inr ⟨rfl, Server.set_idle (.single h)⟩
  | aside hengines _ _ htouched => exact .inr ⟨htouched, fun ws => by rw [hengines]⟩

/-- What happened on the server between `s` and `t`: the session had `ops` carried
out in `ws`, unless another client wrote meanwhile. -/
def Server.Did (ws : String) (ops : List BatchOp) (s t : Server) : Prop :=
  ∃ extra, t.touched = s.touched ++ extra ∧ (extra = [] → Inner.Chain ops (s.engines ws) (t.engines ws))

theorem Server.Did.append {ws : String} {ops ops' : List BatchOp} {s t u : Server} (h : Server.Did ws ops s t)
    (h' : Server.Did ws ops' t u) : Server.Did ws (ops ++ ops') s u := by
  obtain ⟨extra, htouched, hchain⟩ := h
  obtain ⟨extra', htouched', hchain'⟩ := h'
  refine ⟨extra ++ extra', by rw [htouched', htouched, List.append_assoc], fun hnone => ?_⟩
  obtain ⟨hextra, hextra'⟩ := List.append_eq_nil_iff.mp hnone
  exact (hchain hextra).append (hchain' hextra')

/-- A session that writes nothing. -/
theorem did_nothing {s t : Site} (h : ReflTransGen Site.Idle s t) (ws : String) : Server.Did ws [] s.server t.server := by
  induction h with
  | refl => exact ⟨[], (List.append_nil _).symm, fun _ => .nil .refl⟩
  | @tail t u _ hstep ih =>
      obtain ⟨p, htouched⟩ | ⟨htouched, hidle⟩ := Server.Idle.engines hstep
      · obtain ⟨extra, hextra, -⟩ := ih
        exact ⟨extra ++ [p], by rw [htouched, hextra, List.append_assoc], fun hnone => absurd hnone (by simp)⟩
      · exact ih.append ⟨[], by rw [htouched, List.append_nil], fun _ => .nil (hidle ws)⟩

/-- Without a transaction a write goes to the engine. -/
theorem apply_direct (ops : List BatchOp) {s : Site} (h : s.sess.txn = none) :
    apply ops s = (do
      require s.after.writable
      onEngine s.sess.ws (Engine.checkRoom (putKeys ops) ((s.moments 0).clock.now 0))
      setSession fun s => { s with wrote := true }
      let m ← pause
      write s.sess.ws ops m : S Unit) s.after := by
  obtain ⟨⟨user, ws, wsPriv, txn, wrote, watch⟩, server, moments⟩ := s
  obtain rfl : txn = none := h
  rfl

/-- The session as it was, but that it may have written. -/
def Session.Same (s t : Session) : Prop := ∃ wrote, t = { s with wrote }

omit [Codec] in
theorem onEngine_ok {α : Type} {m : M α} {ws : String} {s t : Site} {a : α} (h : onEngine ws m s = .ok a t) :
    ∃ i, m (s.server.engines ws) = .ok a i ∧ t = s.set ws i := by
  unfold onEngine at h
  split at h
  · next b i hm =>
      obtain ⟨rfl, rfl⟩ := EStateM.Result.ok.inj h
      exact ⟨i, hm, rfl⟩
  · exact nomatch h

/-- What an operation does before it turns to the engine to write. -/
def room (ops : List BatchOp) (site : Site) : S Unit := do
  require site.after.writable
  onEngine site.sess.ws (Engine.checkRoom (putKeys ops) ((site.moments 0).clock.now 0))

theorem room_looks (ops : List BatchOp) (s : Site) : Within Site.Looks (room ops s) :=
  (require_looks _).bind fun _ => onEngine_looks (Engine.checkRoom_idle _ _) _

theorem apply_direct_eq (ops : List BatchOp) {s : Site} (h : s.sess.txn = none) :
    apply ops s = (room ops s >>= fun _ => do
      setSession fun s => { s with wrote := true }
      let m ← pause
      write s.sess.ws ops m : S Unit) s.after := by
  rw [apply_direct ops h]
  simp only [room, bind_assoc]

/-- A session without a transaction and what it does to its workspace. -/
structure Site.Does (ops : List BatchOp) (s t : Site) : Prop where
  sess : s.sess.Same t.sess
  did : Server.Did s.sess.ws ops s.server t.server

namespace Site.Does

variable {s t u : Site} {ops ops' : List BatchOp}

theorem append (h : Does ops s t) (h' : Does ops' t u) : Does (ops ++ ops') s u := by
  obtain ⟨wrote, hsess⟩ := h.sess
  obtain ⟨wrote', hsess'⟩ := h'.sess
  refine ⟨⟨wrote', by rw [hsess', hsess]⟩, ?_⟩
  have hws : t.sess.ws = s.sess.ws := by rw [hsess]
  exact h.did.append (hws ▸ h'.did)

theorem ws (h : Does ops s t) : t.sess.ws = s.sess.ws := by
  obtain ⟨wrote, hsess⟩ := h.sess
  rw [hsess]

theorem txn (h : Does ops s t) (htxn : s.sess.txn = none) : t.sess.txn = none := by
  obtain ⟨wrote, hsess⟩ := h.sess
  rw [hsess, ← htxn]

theorem of_looks (h : ReflTransGen Site.Looks s t) : Does [] s t :=
  ⟨⟨s.sess.wrote, looks_sess h⟩, did_nothing (ReflTransGen.mono (fun _ _ h => h.1) _ _ h) _⟩

end Site.Does

end Front

end KivaDb
