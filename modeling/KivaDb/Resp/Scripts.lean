import KivaDb.Front.Reference
import KivaDb.Resp.Calm

namespace KivaDb

open Lib.LittleEndian Lib.Utf8 Lib.Program Lib.Fallible Relation

section

variable [External] [Chrono] [Codec] [Vectors]

namespace Resp

open Front

/-- What the commands a script may run ask for: none of them leaves the workspace,
logs in, subscribes or loads a script. -/
def Op.scriptable : Op → Bool
  | check _ | writable | kvGet _ | kvType _ | apply _ | range | keysMatching _ | len | query _ | reset | now
  | random | maxMembers | who | publish _ _ => true
  | _ => false

/-- A script: it runs one command after the other, as it likes, and ends in a
reply or in an error. -/
structure Script where
  prog : Cmd Reply
  asks : prog.Asks fun op => op.scriptable = true

abbrev Exchange := (op : Op) × Except KivaError op.Ans

namespace Exchange

/-- The buffer of a transaction after the exchange. -/
def lay (writes : Writes) : Exchange → Writes
  | ⟨.apply ops, _⟩ => (bufferAll ops writes).2
  | _ => writes

/-- What the exchange publishes. -/
def messages (scope : String) : Exchange → List Held
  | ⟨.publish channel message, _⟩ => [⟨scope, channel, message⟩]
  | _ => []

/-- The exchange empties the database. -/
def empties : Exchange → Bool
  | ⟨.reset, .ok _⟩ => true
  | _ => false

end Exchange

/-- In this step the connection writes nothing, though it may send messages. -/
inductive Conn.Spares : Conn → Conn → Prop
  | idle {c d : Conn} (h : c.Idle d) : Spares c d
  | send (c : Conn) (messages : List Held) : Spares c (c.send messages)

/-- How often the database of the connection was emptied. -/
def Conn.resets (c : Conn) (ws : String) : Nat := (c.site.server.engines ws).resets

theorem spares_keeps {c d : Conn} (h : ReflTransGen Conn.Spares c d) :
    d.site.server.replicaOf = c.site.server.replicaOf ∧ ∀ ws, d.resets ws = c.resets ws := by
  induction h with
  | refl => exact ⟨rfl, fun _ => rfl⟩
  | tail _ hstep ih =>
      cases hstep with
      | idle h =>
          obtain ⟨-, hreplica, hresets⟩ := Server.Idle.keeps h
          exact ⟨hreplica.trans ih.1, fun ws => (hresets ws).trans (ih.2 ws)⟩
      | send => exact ih

theorem spares_of_idle {c d : Conn} (h : ReflTransGen Conn.Idle c d) : ReflTransGen Conn.Spares c d :=
  ReflTransGen.mono (fun _ _ h => .idle h) _ _ h

/-- The session, with the writes of the exchanges in its buffer. -/
def Session.laid (s : Front.Session) (t : List Exchange) : Front.Session :=
  { s with txn := s.txn.map fun txn => { txn with writes := t.foldl Exchange.lay txn.writes } }

/-- What a connection did in the exchanges of a script. -/
structure Conn.Ran (t : List Exchange) (c d : Conn) : Prop where
  sess : d.site.sess = if c.site.writable.isOk then Session.laid c.site.sess t else c.site.sess
  home : d.home = c.home
  replica : d.site.server.replicaOf = c.site.server.replicaOf
  held : d.held = c.held.map (· ++ t.flatMap (Exchange.messages c.scope))
  sent : d.site.server.sent =
    c.site.server.sent ++ if c.held.isSome then [] else t.flatMap (Exchange.messages c.scope)
  resets : d.resets c.site.sess.ws = c.resets c.site.sess.ws + t.countP Exchange.empties
  spares : t.countP Exchange.empties = 0 → ReflTransGen Conn.Spares c d

/-- A script writes to the buffer of a transaction, or may not write. -/
def Conn.keeps (c : Conn) : Bool := c.site.sess.txn.isSome || !c.site.writable.isOk

omit [Codec] in
theorem Session.laid_nil (s : Front.Session) : Session.laid s [] = s := by
  obtain ⟨_, _, _, txn, _, _⟩ := s
  cases txn <;> rfl

omit [Codec] in
theorem Session.laid_append (s : Front.Session) (t u : List Exchange) :
    Session.laid (Session.laid s t) u = Session.laid s (t ++ u) := by
  unfold Session.laid
  cases s.txn with
  | none => rfl
  | some txn => simp only [Option.map_some, List.foldl_append]

namespace Conn.Ran

variable {t u : List Exchange} {c d e : Conn}

theorem same (h : Ran t c d) : d.site.writable = c.site.writable ∧ d.scope = c.scope ∧
    d.site.sess.ws = c.site.sess.ws ∧ d.site.sess.txn.isSome = c.site.sess.txn.isSome := by
  have hsess : d.site.sess = Session.laid c.site.sess t ∨ d.site.sess = c.site.sess := by
    rw [h.sess]
    split
    · exact .inl rfl
    · exact .inr rfl
  unfold Conn.scope
  rw [h.home]
  obtain hsess | hsess := hsess
  · refine ⟨Site.writable_congr ?_ h.replica, ?_, ?_, ?_⟩
    · rw [hsess]
      rfl
    · rw [hsess]
      rfl
    · rw [hsess]
      rfl
    · rw [hsess]
      exact Option.isSome_map
  · exact ⟨Site.writable_congr (by rw [hsess]) h.replica, by rw [hsess], by rw [hsess], by rw [hsess]⟩

theorem nil (c : Conn) : Ran [] c c where
  sess := by rw [Session.laid_nil, ite_self]
  home := rfl
  replica := rfl
  held := by cases c.held <;> simp
  sent := by simp
  resets := rfl
  spares _ := .refl

theorem append (h : Ran t c d) (h' : Ran u d e) : Ran (t ++ u) c e := by
  obtain ⟨hwritable, hscope, hws, -⟩ := h.same
  refine ⟨?_, h'.home.trans h.home, h'.replica.trans h.replica, ?_, ?_, ?_, ?_⟩
  · rw [h'.sess, hwritable, h.sess]
    split
    · exact Session.laid_append _ _ _
    · rfl
  · rw [h'.held, h.held, hscope]
    cases c.held with
    | none => rfl
    | some held => simp only [Option.map_some, List.flatMap_append, List.append_assoc]
  · rw [h'.sent, h.sent, hscope, h.held]
    cases c.held with
    | none => simp
    | some held => simp
  · have hresets := h'.resets
    rw [hws] at hresets
    rw [hresets, h.resets, List.countP_append, Nat.add_assoc]
  · intro hnone
    rw [List.countP_append, Nat.add_eq_zero_iff] at hnone
    exact (h.spares hnone.1).trans (h'.spares hnone.2)

theorem keeps (h : Ran t c d) : d.keeps = c.keeps := by
  obtain ⟨hwritable, -, -, htxn⟩ := h.same
  unfold Conn.keeps
  rw [hwritable, htxn]

/-- An exchange that neither sends nor empties the database. -/
theorem of_idle {x : Exchange} {s : Site} (h : ReflTransGen Site.Idle c.site s)
    (hsess : s.sess = if c.site.writable.isOk then Session.laid c.site.sess [x] else c.site.sess)
    (hmessages : x.messages c.scope = []) (hempties : x.empties = false) : Ran [x] c { c with site := s } := by
  obtain ⟨hsent, hreplica, hresets⟩ := idle_keeps h
  refine ⟨hsess, rfl, hreplica, ?_, ?_, ?_, fun _ => spares_of_idle (site_idle h)⟩
  · simp only [List.flatMap_cons, List.flatMap_nil, hmessages, List.append_nil, Option.map_id']
  · simp only [List.flatMap_cons, List.flatMap_nil, hmessages, List.append_nil, ite_self]
    exact hsent
  · simp only [List.countP_cons, List.countP_nil, hempties, Bool.false_eq_true, if_false, Nat.add_zero]
    exact hresets _

/-- An exchange that reads. -/
theorem of_looks {x : Exchange} {s : Site} (h : ReflTransGen Site.Looks c.site s)
    (hlay : ∀ writes, x.lay writes = writes) (hmessages : x.messages c.scope = []) (hempties : x.empties = false) :
    Ran [x] c { c with site := s } := by
  have hlaid : Session.laid c.site.sess [x] = c.site.sess := by
    unfold Session.laid
    simp only [List.foldl_cons, List.foldl_nil, hlay]
    exact Session.laid_nil c.site.sess
  refine of_idle (ReflTransGen.mono (fun _ _ h => h.1) _ _ h) ?_ hmessages hempties
  rw [hlaid, ite_self]
  exact looks_sess h

end Conn.Ran

theorem apply_refused (ops : List BatchOp) {s : Site} {e : KivaError} (h : s.writable = .error e) :
    Front.apply ops s = .error e s.after := by
  have hrefused : (require s.after.writable : S Unit) s.after = .error e s.after := by
    rw [s.after_writable, h]
    rfl
  exact bind_error.mpr (.inr ⟨_, _, rfl, bind_error.mpr (.inr ⟨_, _, rfl, bind_error.mpr (.inl hrefused)⟩)⟩)

/-- A write is kept back, or refused. -/
theorem apply_ran (ops : List BatchOp) {c : Conn} (hc : c.keeps = true) (r : Except KivaError Unit) :
    c.Ran [⟨.apply ops, r⟩] { c with site := left (Front.apply ops) c.site } := by
  cases hwritable : c.site.writable with
  | error e =>
      rw [left_of_error (apply_refused ops hwritable)]
      refine .of_idle (pause_idle c.site) ?_ rfl rfl
      rw [hwritable]
      rfl
  | ok _ =>
      obtain ⟨txn, htxn⟩ : ∃ txn, c.site.sess.txn = some txn := by
        simpa [Conn.keeps, hwritable, Except.isOk, Except.toBool, Option.isSome_iff_exists] using hc
      have hquiet := apply_quiet ops (Option.isSome_iff_exists.mpr ⟨txn, htxn⟩)
      refine .of_idle (ReflTransGen.mono (fun _ _ h => h.1) _ _ hquiet) ?_ rfl rfl
      have hleft : left (Front.apply ops) c.site = left (require (bufferAll ops txn.writes).1) { c.site.after with
          sess := { c.site.sess with txn := some { txn with writes := (bufferAll ops txn.writes).2 } } } := by
        unfold left
        rw [apply_open ops htxn, c.site.after_writable, hwritable]
        rfl
      rw [hleft, looks_sess (require_looks _ _), hwritable]
      show _ = Session.laid c.site.sess _
      unfold Session.laid
      rw [htxn]
      rfl

/-- A message is held back, or sent at once. -/
theorem publish_ran (channel message : Bytes) (c : Conn) (r : Except KivaError Int64) :
    c.Ran [⟨.publish channel message, r⟩] (answer (.publish channel message) c).2 := by
  have hlaid : Session.laid c.site.sess [⟨.publish channel message, r⟩] = c.site.sess := Session.laid_nil _
  cases hheld : c.held with
  | some held =>
      simp only [answer, hheld]
      refine ⟨?_, rfl, rfl, ?_, ?_, rfl, fun _ => ?_⟩
      · rw [hlaid, ite_self]
      · rw [hheld]
        rfl
      · simp [hheld]
      · exact .single (.idle (.aside rfl rfl rfl rfl))
  | none =>
      simp only [answer, hheld]
      refine ⟨?_, rfl, rfl, ?_, ?_, rfl, fun _ => ?_⟩
      · rw [hlaid, ite_self]
        rfl
      · rw [hheld]
        exact hheld
      · rw [hheld]
        rfl
      · exact .single (.send c _)

omit [Codec] in
theorem reset_error {fileId : Except String UInt64} {i j : Inner} {e : KivaError}
    (h : KivaDb.reset fileId i = .error e j) : j = i := by
  unfold KivaDb.reset at h
  obtain h | ⟨_, _, hget, h⟩ := bind_error.mp h
  · exact nomatch h
  · obtain ⟨rfl, rfl⟩ := EStateM.Result.ok.inj hget
    split at h
    · exact (EStateM.Result.error.inj h).2.symm
    · split at h
      · exact (EStateM.Result.error.inj h).2.symm
      · split at h
        · exact (EStateM.Result.error.inj h).2.symm
        · exact nomatch h

omit [Codec] in
theorem reset_resets {fileId : Except String UInt64} {i j : Inner} (h : KivaDb.reset fileId i = .ok () j) :
    j.resets = i.resets + 1 := by
  unfold KivaDb.reset at h
  obtain ⟨_, _, hget, h⟩ := bind_ok.mp h
  obtain ⟨rfl, rfl⟩ := EStateM.Result.ok.inj hget
  split at h
  · exact nomatch h
  · split at h
    · exact nomatch h
    · split at h
      · exact nomatch h
      · obtain ⟨-, rfl⟩ := EStateM.Result.ok.inj h
        exact List.count_append.trans rfl

/-- The database is emptied at once, or not at all. -/
theorem reset_ran (c : Conn) : c.Ran [⟨.reset, (answer .reset c).1⟩] (answer .reset c).2 := by
  have hpause := idle_keeps (pause_idle c.site)
  have hrun : resetEngine c.site =
      onEngine c.site.sess.ws (KivaDb.reset (c.site.moments 0).fileId) c.site.after := rfl
  simp only [answer, Conn.lift, hrun, onEngine]
  cases h : KivaDb.reset (c.site.moments 0).fileId (c.site.after.server.engines c.site.sess.ws) with
  | ok a i =>
      have hlaid : Session.laid c.site.sess [⟨.reset, .ok ()⟩] = c.site.sess := Session.laid_nil _
      refine ⟨?_, rfl, hpause.2.1, ?_, ?_, ?_, fun hnone => ?_⟩
      · rw [show Session.laid c.site.sess [⟨.reset, .ok a⟩] = _ from hlaid, ite_self]
        rfl
      · show c.held = c.held.map (· ++ [])
        simp only [List.append_nil, Option.map_id']
      · show _ = c.site.server.sent ++ if c.held.isSome then [] else []
        rw [ite_self, List.append_nil]
        exact hpause.1
      · have hengine : (c.site.after.server.set c.site.sess.ws i).engines c.site.sess.ws = i := if_pos rfl
        show ((c.site.after.server.set c.site.sess.ws i).engines c.site.sess.ws).resets = _
        rw [hengine, reset_resets h]
        exact congrArg (· + 1) (hpause.2.2 c.site.sess.ws)
      · cases hnone
  | error e i =>
      obtain rfl := reset_error h
      refine .of_looks ?_ (fun _ => rfl) rfl rfl
      exact (pause_looks c.site).trans (set_looks .refl)

theorem answer_ran {op : Op} (hop : op.scriptable = true) {c : Conn} (hc : c.keeps = true) :
    c.Ran [⟨op, (answer op c).1⟩] (answer op c).2 := by
  have hlooks (hreads : op.reads = true) (hlay : ∀ r writes, Exchange.lay writes ⟨op, r⟩ = writes)
      (hmessages : ∀ r, Exchange.messages c.scope ⟨op, r⟩ = []) (hempties : ∀ r, Exchange.empties ⟨op, r⟩ = false) :
      c.Ran [⟨op, (answer op c).1⟩] (answer op c).2 := by
    obtain ⟨s, hs, hlooks⟩ := answer_looks hreads c
    rw [hs]
    exact .of_looks hlooks (hlay _) (hmessages _) (hempties _)
  cases op with
  | check | writable | kvGet | kvType | range | keysMatching | len | query | now | random | maxMembers | who =>
      exact hlooks rfl (fun _ _ => rfl) (fun _ => rfl) fun _ => rfl
  | apply ops =>
      show c.Ran _ (c.lift (Front.apply ops)).2
      rw [lift_snd]
      exact apply_ran ops hc _
  | reset => exact reset_ran c
  | publish channel message => exact publish_ran channel message c _
  | switchWorkspace | ensureWorkspace | leave | login | setHome | listen | protocol | scripts | setScripts =>
      exact absurd hop (by simp [Op.scriptable])

/-- What the run of a script asks for. -/
def Conn.exchanges (c : Conn) (script : Cmd Reply) : List Exchange := script.exchanges answer c

theorem perform_ran (s : Script) {c : Conn} (hc : c.keeps = true) :
    c.Ran (c.exchanges s.prog) (c.perform s.prog).2 := by
  refine Prog.run_exchanges (P := fun op => op.scriptable = true) (I := fun c => c.keeps = true) (R := Conn.Ran)
    Conn.Ran.nil ?_ ?_ s.prog hc s.asks
  · intro op c xs d hc hop hrest
    exact (answer_ran hop hc).append hrest
  · intro op c hc hop
    rw [(answer_ran hop hc).keeps]
    exact hc

/-- The connection when its script starts. -/
def Conn.ready (c : Conn) : Conn :=
  if c.implicit then { c with site := left begin_ c.site, held := some [] } else c

/-- The committed data, the buffer of the session and the messages are as if
nothing had been written or published. -/
structure Conn.Undone (c d : Conn) : Prop where
  spares : ReflTransGen Conn.Spares c d
  txn : d.site.sess.txn = c.site.sess.txn
  sent : d.site.server.sent = c.site.server.sent
  held : d.held = c.held

/-- Laid over the open transaction, the writes among the exchanges change nothing
in its buffer. -/
def Conn.Unchanging (c : Conn) (t : List Exchange) : Prop :=
  c.site.writable.isOk = true → ∀ txn, c.site.sess.txn = some txn → t.foldl Exchange.lay txn.writes = txn.writes

/-- The database is not emptied, and the script either has a transaction of its
own with no message held back around it, or publishes nothing and changes nothing
in the buffer it shares. -/
def Conn.Undoes (c : Conn) (t : List Exchange) : Prop :=
  t.countP Exchange.empties = 0 ∧
    if c.implicit then c.held = none else t.flatMap (Exchange.messages c.scope) = [] ∧ c.Unchanging t

omit [Codec] in
theorem implicit_iff {c : Conn} : c.implicit = true ↔ c.site.sess.txn = none ∧ c.site.writable = .ok () := by
  unfold Conn.implicit
  rw [Bool.and_eq_true, Option.isNone_iff_eq_none]
  cases c.site.writable with
  | ok a => simp [Except.isOk, Except.toBool]
  | error e => simp [Except.isOk, Except.toBool]

/-- A script alone runs in a transaction that begins with nothing kept back. -/
theorem ready_implicit {c : Conn} (h : c.implicit = true) :
    ∃ s, begin_ c.site = .ok () s ∧ c.ready = { c with site := s, held := some [] } ∧
      ∃ beginSeq, s.sess = { c.site.sess with txn := some { beginSeq, writes := ∅, savepoints := [] } } := by
  obtain ⟨htxn, hwritable⟩ := implicit_iff.mp h
  obtain ⟨s, hs⟩ := begin_succeeds htxn hwritable
  refine ⟨s, hs, ?_, begin_ok hs⟩
  unfold Conn.ready
  rw [if_pos h, left_of_ok hs]

theorem eval_alone {c : Conn} (h : c.implicit = true) (script : Cmd Reply) :
    eval script c = settle (c.ready.perform script).1 (c.ready.perform script).2 := by
  obtain ⟨s, hbegin, hready, -⟩ := ready_implicit h
  have hsession : session begin_ c = .ok () { c with site := s } := by
    unfold session Conn.lift
    rw [hbegin]
  show (if c.implicit = true then evalAlone script else _ : C Reply) c = _
  rw [if_pos h, hready]
  simp only [evalAlone, bind, EStateM.bind, hsession]
  rfl

theorem ready_shared {c : Conn} (h : c.implicit = false) : c.ready = c := if_neg (by simp [h])

theorem eval_shared {c : Conn} (h : c.implicit = false) (script : Cmd Reply) :
    eval script c = given (c.perform script).1 (c.perform script).2 := by
  show (if c.implicit = true then _ else (do given (← performed script) : C Reply)) c = _
  rw [if_neg (by simp [h])]
  rfl

theorem ready_keeps (c : Conn) : c.ready.keeps = true := by
  cases h : c.implicit with
  | true =>
      obtain ⟨s, -, hready, beginSeq, hsess⟩ := ready_implicit h
      rw [hready, Conn.keeps, Bool.or_eq_true]
      left
      show s.sess.txn.isSome = true
      rw [hsess]
      rfl
  | false =>
      have hready : c.ready = c := if_neg (by simp [h])
      unfold Conn.implicit at h
      rw [hready, Conn.keeps]
      cases htxn : c.site.sess.txn with
      | some txn => rfl
      | none =>
          rw [htxn] at h
          simpa using h

theorem held_idle (c : Conn) (held : Option (List Held)) : c.Idle { c with held } := .aside rfl rfl rfl rfl

/-- A transaction begins, a script runs in it and it is rolled back: what was
emptied meanwhile stays empty. -/
theorem rolled_back {c d : Conn} {s u : Site} {held : Option (List Held)} (held' : Option (List Held))
    {t : List Exchange} (hbegin : begin_ c.site = .ok () s) (hran : Conn.Ran t { c with site := s, held } d)
    (hrollback : rollback d.site = .ok () u) :
    (ReflTransGen Conn.Spares c { d with site := u, held := held' } ↔ t.countP Exchange.empties = 0) ∧
      u.server.sent = d.site.server.sent ∧ s.server.sent = c.site.server.sent := by
  have hbegan := begin_idle.ok hbegin
  have hended := rollback_idle.ok hrollback
  obtain ⟨beginSeq, hsess⟩ := begin_ok hbegin
  refine ⟨⟨fun h => ?_, fun h => ?_⟩, (idle_keeps hended).1, (idle_keeps hbegan).1⟩
  · have hresets := (spares_keeps h).2 c.site.sess.ws
    have hscript : (d.site.server.engines s.sess.ws).resets = (s.server.engines s.sess.ws).resets + _ := hran.resets
    have hend : (u.server.engines c.site.sess.ws).resets = _ := (idle_keeps hended).2.2 c.site.sess.ws
    have hstart := (idle_keeps hbegan).2.2 c.site.sess.ws
    have hcount : (u.server.engines c.site.sess.ws).resets = (c.site.server.engines c.site.sess.ws).resets := hresets
    rw [show s.sess.ws = c.site.sess.ws by rw [hsess]] at hscript
    omega
  · have hstart : ReflTransGen Conn.Spares c { c with site := s, held } :=
      (spares_of_idle (site_idle hbegan)).tail (.idle (held_idle _ _))
    have hend : ReflTransGen Conn.Spares d { d with site := u, held := held' } :=
      (spares_of_idle (site_idle hended)).tail (.idle (held_idle _ _))
    exact (hstart.trans (hran.spares h)).trans hend

/-- A script that fails in a transaction of its own. -/
theorem eval_failed_alone {s : Script} {c d : Conn} {e : Reply} (himp : c.implicit = true)
    (hrun : c.ready.perform s.prog = (.error e, d)) :
    ∃ d', eval s.prog c = .error e d' ∧ (c.Undone d' ↔ c.Undoes (c.ready.exchanges s.prog)) := by
  obtain ⟨u, hbegin, hready, beginSeq, hsess⟩ := ready_implicit himp
  have hran := perform_ran s (ready_keeps c)
  rw [hrun, hready] at hran
  obtain ⟨v, hrollback, hrolled⟩ := rollback_ok d.site
  obtain ⟨hspares, hend, hstart⟩ := rolled_back none hbegin hran hrollback
  refine ⟨{ d with site := v, held := none }, ?_, ?_⟩
  · have hsession : session rollback { d with held := none } = .ok () { d with site := v, held := none } := by
      unfold session Conn.lift
      rw [show rollback ({ d with held := none } : Conn).site = _ from hrollback]
    rw [eval_alone himp, hrun]
    show (session rollback >>= fun _ => throw e : C Reply) { d with held := none } = _
    simp only [bind, EStateM.bind, hsession]
    rfl
  · unfold Conn.Undoes
    rw [if_pos himp, hready, ← hspares]
    constructor
    · exact fun h => ⟨h.spares, h.held.symm⟩
    · rintro ⟨h, hheld⟩
      refine ⟨h, ?_, ?_, hheld.symm⟩
      · show v.sess.txn = _
        rw [hrolled, (implicit_iff.mp himp).1]
      · have hsent : d.site.server.sent = u.server.sent ++ [] := hran.sent
        show v.server.sent = _
        rw [hend, hsent, List.append_nil, hstart]

namespace Conn.Ran

variable {t : List Exchange} {c d : Conn}

theorem spares_iff (h : Ran t c d) : ReflTransGen Conn.Spares c d ↔ t.countP Exchange.empties = 0 := by
  refine ⟨fun hspares => ?_, h.spares⟩
  have hresets := h.resets
  rw [(spares_keeps hspares).2] at hresets
  omega

theorem txn_iff (h : Ran t c d) : d.site.sess.txn = c.site.sess.txn ↔ c.Unchanging t := by
  unfold Conn.Unchanging
  rw [h.sess]
  split
  · next hwritable =>
      cases htxn : c.site.sess.txn with
      | none => simp [Session.laid, htxn]
      | some txn =>
          obtain ⟨beginSeq, writes, savepoints⟩ := txn
          simp [Session.laid, htxn, hwritable]
  · next hwritable => simp [hwritable]

theorem messages_iff (h : Ran t c d) : d.site.server.sent = c.site.server.sent ∧ d.held = c.held ↔
    t.flatMap (Exchange.messages c.scope) = [] := by
  rw [h.sent, h.held]
  cases c.held with
  | none => simp
  | some held => simp

end Conn.Ran

/-- A script that fails in a transaction it shares, or without one. -/
theorem eval_failed_shared {s : Script} {c d : Conn} {e : Reply} (himp : c.implicit = false)
    (hrun : c.perform s.prog = (.error e, d)) :
    eval s.prog c = .error e d ∧ (c.Undone d ↔ c.Undoes (c.exchanges s.prog)) := by
  have hran := perform_ran s (ready_shared himp ▸ ready_keeps c)
  rw [hrun] at hran
  constructor
  · rw [eval_shared himp, hrun]
    rfl
  · unfold Conn.Undoes
    rw [if_neg (by simp [himp]), ← hran.spares_iff, ← hran.txn_iff, ← hran.messages_iff]
    constructor
    · exact fun h => ⟨h.spares, ⟨h.sent, h.held⟩, h.txn⟩
    · exact fun ⟨hspares, hmessages, htxn⟩ => ⟨hspares, htxn, hmessages.1, hmessages.2⟩

/-- What a script wrote is all in the transaction it ran in and nothing else was
written: it is committed together with what else is in it, or not at all. -/
structure Conn.Together (c : Conn) (t : List Exchange) (d : Conn) : Prop where
  spares : ReflTransGen Conn.Spares c d
  sess : d.site.sess = if c.site.writable.isOk then Session.laid c.site.sess t else c.site.sess

theorem Conn.Ran.together_iff {t : List Exchange} {c d : Conn} (h : c.Ran t d) :
    c.Together t d ↔ t.countP Exchange.empties = 0 :=
  ⟨fun htogether => h.spares_iff.mp htogether.spares, fun hnone => ⟨h.spares hnone, h.sess⟩⟩

/-- A script that ends without error has its writes committed, or leaves them to
the transaction it shares. -/
theorem eval_succeeded {s : Script} {c d : Conn} {r : Reply} (hrun : c.ready.perform s.prog = (.ok r, d)) :
    eval s.prog c = if c.implicit then settle (.ok r) d else .ok r d := by
  cases himp : c.implicit with
  | true =>
      rw [eval_alone himp, hrun]
      rfl
  | false =>
      rw [ready_shared himp] at hrun
      rw [eval_shared himp, hrun]
      rfl

/-- What the functions of `kiva` in a script ask for. -/
def Op.kiva : Op → Bool
  | check _ | kvGet _ | kvType _ | apply _ | keysMatching _ | now => true
  | _ => false

/-- A script of the shell. -/
structure KivaScript where
  prog : Cmd Reply
  asks : prog.Asks fun op => op.kiva = true

def KivaScript.toScript (k : KivaScript) : Script where
  prog := k.prog
  asks := k.asks.mono fun op hop => by cases op <;> first | rfl | exact nomatch hop

namespace Shell

/-- Runs a script atomically, in the transaction of the session if one is open. -/
def eval (script : Cmd Reply) : C Reply := do
  if (← get).site.sess.txn.isNone then
    session begin_
    match ← performed script with
    | .ok r => do
        let _ ← session commit
        return r
    | .error e => do
        session rollback
        throw e
  else given (← performed script)

/-- The connection when its script starts. -/
def ready (c : Conn) : Conn := if c.site.sess.txn.isNone then { c with site := left begin_ c.site } else c

variable {k : KivaScript} {c d : Conn}

theorem messages_nil (c : Conn) (k : KivaScript) (scope : String) :
    (c.exchanges k.prog).flatMap (Exchange.messages scope) = [] := by
  rw [List.flatMap_eq_nil_iff]
  rintro ⟨op, r⟩ hx
  have hop := k.asks.of_mem hx
  cases op <;> first | rfl | exact nomatch hop

theorem empties_none (c : Conn) (k : KivaScript) : (c.exchanges k.prog).countP Exchange.empties = 0 := by
  rw [List.countP_eq_zero]
  rintro ⟨op, r⟩ hx
  have hop := k.asks.of_mem hx
  cases op <;> first | exact Bool.false_ne_true | exact nomatch hop

/-- A session that may not write runs no script outside a transaction. -/
theorem eval_refused (script : Cmd Reply) (htxn : c.site.sess.txn = none) {e : KivaError}
    (h : c.site.writable = .error e) :
    ∃ d, eval script c = .error (.ofError e) d ∧ c.Undone d := by
  have hbegin : begin_ c.site = .error e c.site.after := by
    rw [begin_eq, h]
    rfl
  have hidle := idle_keeps (pause_idle c.site)
  refine ⟨{ c with site := c.site.after }, ?_, spares_of_idle (site_idle (pause_idle c.site)), rfl, hidle.1, rfl⟩
  have hsession : session begin_ c = .error (.ofError e) { c with site := c.site.after } := by
    unfold session Conn.lift
    rw [hbegin]
  show (if c.site.sess.txn.isNone = true then _ else _ : C Reply) c = _
  rw [if_pos (by rw [htxn]; rfl)]
  simp only [bind, EStateM.bind, hsession]

theorem ready_open {txn : Txn} (h : c.site.sess.txn = some txn) : ready c = c := if_neg (by simp [h])

theorem ready_begun (htxn : c.site.sess.txn = none) {s : Site} (hbegin : begin_ c.site = .ok () s) :
    ready c = { c with site := s } := by
  unfold ready
  rw [htxn, left_of_ok hbegin]
  rfl

/-- A script that has a transaction of its own and one that shares one. -/
theorem eval_ready (script : Cmd Reply) (hwritable : c.site.sess.txn.isSome = true ∨ c.site.writable = .ok ()) :
    eval script c =
      if c.site.sess.txn.isNone then
        (match ((ready c).perform script).1 with
          | .ok r => do
              let _ ← session commit
              return r
          | .error e => do
              session rollback
              throw e : C Reply) ((ready c).perform script).2
      else given (c.perform script).1 (c.perform script).2 := by
  cases htxn : c.site.sess.txn with
  | some txn =>
      show (if c.site.sess.txn.isNone = true then _ else _ : C Reply) c = _
      rw [htxn]
      rfl
  | none =>
      obtain ⟨s, hbegin⟩ := begin_succeeds htxn (hwritable.resolve_left (by simp [htxn]))
      have hsession : session begin_ c = .ok () { c with site := s } := by
        unfold session Conn.lift
        rw [hbegin]
      show (if c.site.sess.txn.isNone = true then _ else _ : C Reply) c = _
      rw [htxn, ready_begun htxn hbegin]
      simp only [Option.isNone_none, if_true, bind, EStateM.bind, hsession]
      rfl

theorem ready_keeps (hwritable : c.site.sess.txn.isSome = true ∨ c.site.writable = .ok ()) :
    (ready c).keeps = true := by
  rw [Conn.keeps, Bool.or_eq_true]
  left
  cases htxn : c.site.sess.txn with
  | some txn =>
      rw [ready_open htxn, htxn]
      rfl
  | none =>
      obtain ⟨s, hbegin⟩ := begin_succeeds htxn (hwritable.resolve_left (by simp [htxn]))
      obtain ⟨beginSeq, hsess⟩ := begin_ok hbegin
      rw [ready_begun htxn hbegin]
      show s.sess.txn.isSome = true
      rw [hsess]
      rfl

theorem eval_failed (hwritable : c.site.sess.txn.isSome = true ∨ c.site.writable = .ok ()) {e : Reply}
    (hrun : (ready c).perform k.prog = (.error e, d)) :
    ∃ d', eval k.prog c = .error e d' ∧ (c.Undone d' ↔ c.Unchanging ((ready c).exchanges k.prog)) := by
  have hran : (ready c).Ran ((ready c).exchanges k.prog) d := by
    have h := perform_ran k.toScript (ready_keeps hwritable)
    rwa [show (ready c).perform k.toScript.prog = _ from hrun] at h
  have hempties := empties_none (ready c) k
  have hmessages := messages_nil (ready c) k
  rw [eval_ready k.prog hwritable, hrun]
  cases htxn : c.site.sess.txn with
  | some txn =>
      rw [ready_open htxn] at hrun hran hempties hmessages ⊢
      refine ⟨d, by rw [hrun]; rfl, ?_⟩
      rw [← hran.txn_iff]
      obtain ⟨hsent, hheld⟩ := hran.messages_iff.mpr (hmessages c.scope)
      exact ⟨fun h => h.txn, fun h => ⟨hran.spares hempties, h, hsent, hheld⟩⟩
  | none =>
      obtain ⟨s, hbegin⟩ := begin_succeeds htxn (hwritable.resolve_left (by simp [htxn]))
      rw [ready_begun htxn hbegin] at hran hempties hmessages ⊢
      obtain ⟨v, hrollback, hrolled⟩ := rollback_ok d.site
      obtain ⟨hspares, hend, hstart⟩ := rolled_back d.held hbegin hran hrollback
      obtain ⟨hsent, hheld⟩ := hran.messages_iff.mpr (hmessages _)
      refine ⟨{ d with site := v }, ?_, ?_⟩
      · have hsession : session rollback d = .ok () { d with site := v } := by
          unfold session Conn.lift
          rw [hrollback]
        show (session rollback >>= fun _ => throw e : C Reply) d = _
        simp only [bind, EStateM.bind, hsession]
        rfl
      · refine ⟨fun _ _ txn h => absurd (htxn.symm.trans h) (by simp), fun _ => ?_⟩
        refine ⟨hspares.mpr hempties, ?_, hend.trans (hsent.trans hstart), hheld⟩
        show v.sess.txn = _
        rw [hrolled, htxn]

end Shell

/-- A script is undone when it fails, wherever it runs, and keeps its writes
together when it does not, exactly as long as it does not empty the database and,
when it fails, has a transaction of its own and no messages are held back around
it, or else publishes nothing and changes nothing in the buffer it shares. The
scripts of the shell neither publish nor empty the database. -/
theorem script_all_or_nothing_iff (s : Script) (k : KivaScript) (c : Conn) :
    (match c.ready.perform s.prog with
      | (.error e, _) => ∃ d, eval s.prog c = .error e d ∧ (c.Undone d ↔ c.Undoes (c.ready.exchanges s.prog))
      | (.ok r, d) => eval s.prog c = (if c.implicit then settle (.ok r) d else .ok r d) ∧
          (c.ready.Together (c.ready.exchanges s.prog) d ↔
            (c.ready.exchanges s.prog).countP Exchange.empties = 0)) ∧
    (match c.site.sess.txn, c.site.writable with
      | none, .error e => ∃ d, Shell.eval k.prog c = .error (.ofError e) d ∧ c.Undone d
      | _, _ =>
          match (Shell.ready c).perform k.prog with
          | (.error e, _) =>
              ∃ d, Shell.eval k.prog c = .error e d ∧ (c.Undone d ↔ c.Unchanging ((Shell.ready c).exchanges k.prog))
          | (.ok _, d) => (Shell.ready c).Together ((Shell.ready c).exchanges k.prog) d) := by
  constructor
  · have hran := perform_ran s (ready_keeps c)
    rcases hrun : c.ready.perform s.prog with ⟨e | r, d⟩
    · cases himp : c.implicit with
      | true => exact eval_failed_alone himp hrun
      | false =>
          rw [ready_shared himp] at hrun ⊢
          exact ⟨d, eval_failed_shared himp hrun⟩
    · rw [hrun] at hran
      exact ⟨eval_succeeded hrun, hran.together_iff⟩
  · have hopen (hwritable : c.site.sess.txn.isSome = true ∨ c.site.writable = .ok ()) :
        match (Shell.ready c).perform k.prog with
          | (.error e, _) =>
              ∃ d, Shell.eval k.prog c = .error e d ∧ (c.Undone d ↔ c.Unchanging ((Shell.ready c).exchanges k.prog))
          | (.ok _, d) => (Shell.ready c).Together ((Shell.ready c).exchanges k.prog) d := by
      have hran := perform_ran k.toScript (Shell.ready_keeps hwritable)
      rcases hrun : (Shell.ready c).perform k.prog with ⟨e | r, d⟩
      · exact Shell.eval_failed hwritable hrun
      · rw [show (Shell.ready c).perform k.toScript.prog = _ from hrun] at hran
        exact hran.together_iff.mpr (Shell.empties_none _ _)
    cases htxn : c.site.sess.txn with
    | some txn => exact hopen (.inl (htxn ▸ rfl))
    | none =>
        cases hwritable : c.site.writable with
        | ok _ => exact hopen (.inr hwritable)
        | error e => exact Shell.eval_refused k.prog htxn hwritable

end Resp

end

namespace Resp

section Samples

open Front Reference

local instance scriptsCodec : Codec := codec []

def setThenFail : String := "redis.call('SET', 'k', 'v') redis.call('EXEC')"

def notAllowed : Reply := .err "This Redis command is not allowed from script"

/-- A script that runs a command it may not run, after a write or not. -/
local instance failingScripts : Commands where
  data _ _ := pure .ok
  waiting _ _ := pure .ok
  script source _ _ := do
    if source = setThenFail then Cmd.put "k" (.str "v") 0
    .fail notAllowed
  sha1 _ := ""

/-- Handles the commands one after the other: the last reply, and whether `k` is
stored then. -/
def replyAndK (c : Conn) : List (List Bytes) → Reply → Option (Reply × Bool)
  | [], r => some (r, (c.site.server.engines "default").table.index["k"]?.isSome)
  | args :: rest, _ =>
      match handle args c with
      | .ok r c => replyAndK c rest r
      | .error _ _ => none

def multiEval (source : String) : List (List Bytes) :=
  [[asBytes "MULTI"], [asBytes "EVAL", asBytes source, asBytes "0"], [asBytes "EXEC"]]

/-- What a failed script wrote is committed with the transaction around it; run
alone it is not. -/
theorem failed_script_commits :
    replyAndK (connection server [] 5) (multiEval setThenFail) .ok = some (.array (some [notAllowed]), true) ∧
      replyAndK (connection server [] 5) (multiEval "redis.call('EXEC')") .ok =
        some (.array (some [notAllowed]), false) ∧
      replyAndK (connection server [] 5) [[asBytes "EVAL", asBytes setThenFail, asBytes "0"]] .ok =
        some (notAllowed, false) := by
  refine ⟨by decide +kernel, by decide +kernel, by decide +kernel⟩

end Samples

end Resp

end KivaDb
