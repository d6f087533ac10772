import KivaDb.Front.Reference
import KivaDb.Resp.Select
import KivaDb.Resp.Watches

namespace KivaDb

open Lib.LittleEndian Lib.Utf8 Lib.Fallible Lib.Ignoring Relation

section

variable [External] [Chrono] [Codec] [Vectors]

namespace Resp

open Front

variable [Commands]

/-- EXEC is about to run what MULTI queued. -/
structure Conn.Ready (c : Conn) (queued : List (List Bytes)) : Prop where
  away : turnedAway c "EXEC" = none
  queued : c.queued = some queued
  aborted : c.aborted = false
  txn : c.site.sess.txn = none

/-- The connection once EXEC has taken the queue. -/
def Conn.started (c : Conn) : Conn := { c with queued := none, aborted := false }

variable {args : List Bytes} {c : Conn} {queued : List (List Bytes)}

theorem exec_started (h : c.Ready queued) :
    exec c = (do
      match ← session watchConflict with
      | some _ => return .array none
      | none => execQueue queued : C Reply) c.started := by
  have haborted : ¬ c.aborted = true := by simp [h.aborted]
  have htxn : ¬ c.site.sess.txn.isSome = true := by simp [h.txn]
  obtain ⟨site, q, aborted, home, resp3, subs, held⟩ := c
  obtain rfl : q = some queued := h.queued
  show (if aborted = true then _ else if site.sess.txn.isSome = true then _ else _ : C Reply) _ = _
  rw [if_neg haborted]
  exact congrFun (if_neg htxn) _

omit [Commands] in
theorem started_idle (c : Conn) : c.Idle c.started := .aside rfl rfl rfl rfl

omit [Commands] in
theorem watchConflict_looks : Within Site.Looks watchConflict := by
  refine pause_looks.bind fun m => Within.get.bind fun s => ?_
  split
  · exact Within.pure none
  · exact onEngine_looks (Engine.watchConflict_idle _ _) _

omit [Commands] in
theorem unwatched (c : Conn) : ∃ d, session unwatch c = .ok () d ∧ ReflTransGen Conn.Idle c d := by
  obtain ⟨t, ht⟩ := unwatch_ok c.site
  have hok : session unwatch c = .ok () { c with site := t } := by
    unfold session Conn.lift
    rw [ht]
  exact ⟨_, hok, (session_idle unwatch_idle).ok hok⟩

/-- What EXEC answers is what running the queue comes to; the watch then ends. -/
theorem handle_exec (hname : upper (args.headD []) = "EXEC") (h : c.Ready queued) {r : Reply} {d : Conn}
    (hexec : exec c = .ok r d) (hidle : ReflTransGen Conn.Idle c d) :
    ∃ e, handle args c = .ok r e ∧ ReflTransGen Conn.Idle c e := by
  obtain ⟨e, he, hde⟩ := unwatched d
  refine ⟨e, ?_, hidle.trans hde⟩
  have hsup : refuse (upper (args.headD [])) args = none := by
    rw [hname]
    exact if_pos (by decide)
  have hmem : upper (args.headD []) ∈ notQueued := by
    rw [hname]
    decide
  have hcommand : execCommand c = .ok r e := by
    simp only [execCommand, reply, bind, EStateM.bind, hexec, he]
    rfl
  rw [handle_now (hname ▸ h.away) hsup (.inr hmem), hname]
  show reply execCommand c = _
  unfold reply
  rw [hcommand]

omit [Commands] in
theorem watchConflict_eq {ws : String} {w : List WatchedKey} (hwatch : c.site.sess.watch = some (ws, w))
    {key : Option String} {i : Inner}
    (h : changed ((c.site.moments 0).clock.now 0) w (c.site.after.server.engines ws) = .ok key i) :
    session watchConflict c = .ok key { c with site := c.site.after.set ws i } := by
  have hrun (s : Site) (hs : s.sess.watch = some (ws, w)) :
      watchConflict s = onEngine ws (Engine.watchConflict w ((s.moments 0).clock.now 0)) s.after := by
    obtain ⟨⟨user, ws', wsPriv, txn, wrote, watch⟩, server, moments⟩ := s
    obtain rfl : watch = some (ws, w) := hs
    rfl
  have hsite : watchConflict c.site = .ok key (c.site.after.set ws i) := by
    rw [hrun _ hwatch]
    unfold onEngine
    rw [show Engine.watchConflict w ((c.site.moments 0).clock.now 0) (c.site.after.server.engines ws) = _ from h]
    rfl
  unfold session Conn.lift
  rw [hsite]

/-- A watched key has changed when EXEC comes: nothing runs. -/
theorem exec_nil_at_check (hname : upper (args.headD []) = "EXEC") (h : c.Ready queued) {ws key : String}
    {w : List WatchedKey} {i : Inner} (hwatch : c.site.sess.watch = some (ws, w))
    (hchanged : changed ((c.site.moments 0).clock.now 0) w (c.site.after.server.engines ws) = .ok (some key) i) :
    ∃ d, handle args c = .ok (.array none) d ∧ ReflTransGen Conn.Idle c d := by
  have hcheck : session watchConflict c.started = .ok (some key) { c.started with site := c.site.after.set ws i } :=
    watchConflict_eq (c := c.started) hwatch hchanged
  refine handle_exec hname h (d := { c.started with site := c.site.after.set ws i }) ?_ ?_
  · rw [exec_started h]
    simp only [bind, EStateM.bind, hcheck]
    rfl
  · exact .head (started_idle c) ((session_idle (idle_of_looks watchConflict_looks)).ok hcheck)

/-- The connection holds messages back. -/
def Conn.holding (c : Conn) : Conn := { c with held := some [] }

/-- EXEC finds no change at first, its queue is calm and its transaction gets as
far as its batch, when the session and its server are at `t`. -/
def Conn.CommitsAt (c : Conn) (queued : List (List Bytes)) (t : Site) : Prop :=
  ∃ c₁ c₂ replies c₃ txn, session watchConflict c.started = .ok none c₁ ∧ session begin_ c₁ = .ok () c₂ ∧
    CalmQueue queued c₂.holding ∧ runQueued queued c₂.holding = .ok replies c₃ ∧ c₃.site.sess.txn = some txn ∧
      c₃.site.Reaches txn c.site.sess.ws t

/-- A watched key changes while EXEC runs, before its batch: nothing is written. -/
theorem exec_nil_at_commit (hname : upper (args.headD []) = "EXEC") (h : c.Ready queued) {t : Site}
    (hcommits : c.CommitsAt queued t) {key : String} {w : List WatchedKey} {i : Inner}
    (hwatch : c.site.sess.watch = some (c.site.sess.ws, w))
    (hchanged : changed ((t.moments 0).clock.now 0) w (t.after.server.engines c.site.sess.ws) = .ok (some key) i) :
    ∃ d, handle args c = .ok (.array none) d ∧ ReflTransGen Conn.Idle c d := by
  obtain ⟨c₁, c₂, replies, c₃, txn, hcheck, hbegin, hcalm, hrun, htxn, hreaches⟩ := hcommits
  obtain ⟨s₁, hs₁, rfl⟩ := session_ok hcheck
  obtain ⟨s₂, hs₂, rfl⟩ := session_ok hbegin
  have hsess₁ : s₁.sess = c.site.sess := looks_sess (watchConflict_looks.ok hs₁)
  obtain ⟨beginSeq, hsess₂⟩ := begin_ok hs₂
  have hws₂ : s₂.sess.ws = s₁.sess.ws := by rw [hsess₂]
  have hwatch₂ : s₂.sess.watch = s₁.sess.watch := by rw [hsess₂]
  have hbuffering : Conn.buffering ({ c.started with site := s₂ } : Conn).holding = true := by
    show (s₂.sess.txn.isSome && true) = true
    rw [hsess₂]
    rfl
  obtain ⟨replies', c₃', hrun', hquiet⟩ := runQueued_quiet hcalm hbuffering
  obtain ⟨-, rfl⟩ := EStateM.Result.ok.inj (hrun.symm.trans hrun')
  obtain ⟨hws, hkept⟩ := (quiet_session hquiet).same
  have hws₃ : c₃.site.sess.ws = c.site.sess.ws := hws.trans (hws₂.trans (congrArg Front.Session.ws hsess₁))
  have hwatch₃ : c₃.site.sess.watch = some (c₃.site.sess.ws, w) := by
    rw [hws₃, ← hwatch]
    exact hkept.trans (hwatch₂.trans (congrArg Front.Session.watch hsess₁))
  obtain ⟨u, hu⟩ := commit_conflict htxn hwatch₃ hreaches hchanged
  have hattempt : attempted begin_ { c.started with site := s₁ } = .ok (.ok ()) { c.started with site := s₂ } := by
    unfold attempted Conn.lift
    rw [hs₂]
  have hcommit : attempted commit { c₃ with held := none } =
      .ok (.error (changedError key)) { c₃ with site := u, held := none } := by
    unfold attempted Conn.lift
    rw [hu]
  have hopen : execOpen queued { c.started with site := s₂ } = .ok (.array none) { c₃ with site := u, held := none } := by
    show (runQueued queued >>= fun replies => takeHeld >>= fun held => attempted commit >>= _)
      ({ c.started with site := s₂ } : Conn).holding = _
    have hheld : takeHeld c₃ = .ok (c₃.held.getD []) { c₃ with held := none } := rfl
    simp only [bind, EStateM.bind, hrun, hheld, hcommit]
    rfl
  have hqueue : execQueue queued { c.started with site := s₁ } =
      .ok (.array none) { c₃ with site := u, held := none } := by
    simp only [execQueue, bind, EStateM.bind, hattempt]
    exact hopen
  refine handle_exec hname h (d := { c₃ with site := u, held := none }) ?_ ?_
  · rw [exec_started h]
    simp only [bind, EStateM.bind, hcheck]
    exact hqueue
  · have hstart : ReflTransGen Conn.Idle c { c.started with site := s₂ } :=
      .head (started_idle c) (((session_idle (idle_of_looks watchConflict_looks)).ok hcheck).trans
        ((session_idle begin_idle).ok hbegin))
    have hhold : Conn.Idle { c.started with site := s₂ } ({ c.started with site := s₂ } : Conn).holding :=
      .aside rfl rfl rfl rfl
    have hrelease : Conn.Idle c₃ { c₃ with held := none } := .aside rfl rfl rfl rfl
    have hend : ReflTransGen Conn.Idle { c₃ with held := none } { c₃ with site := u, held := none } :=
      site_idle (c := { c₃ with held := none }) (commit_error_idle hu)
    exact (hstart.tail hhold).trans ((quiet_idle hquiet).trans (.head hrelease hend))

/-- EXEC looks at the keys of `n` when the server is as in `s` and the clock shows
`now`: before it runs anything, and with its batch in their workspace. -/
inductive Conn.Looks (c : Conn) (queued : List (List Bytes)) (n : Named) : Server → Int64 → Prop
  | check : Looks c queued n c.site.after.server ((c.site.moments 0).clock.now 0)
  | commit {t : Site} (hws : c.site.sess.ws = n.ws) (h : c.CommitsAt queued t) :
      Looks c queued n t.after.server ((t.moments 0).clock.now 0)

/-- The engine tells that the key of `n` changed, if it did and is watched. -/
def Conn.Reports (c : Conn) (n : Named) (s : Server) (now : Int64) : Prop :=
  n.ChangedIn s.touched → ∀ w, c.site.sess.watch = some (n.ws, w) → (∃ x ∈ w, x.key = n.key) →
    ∃ key i, changed now w (s.engines n.ws) = .ok (some key) i

/-- In a run whose WATCHes are all made in the workspace of the keys watched
already, EXEC answers nil and writes nothing whenever another client has written
or deleted a key named by one of them before EXEC last looks. -/
theorem exec_nil_over_changed_key {start : Conn} {commands : List (List Bytes)} {s : Watcher}
    (hrun : Lib.Runs.run Watcher.step ⟨start, []⟩ commands = some s)
    (hone : Lib.Runs.Along Watcher.step Watcher.OneWorkspace ⟨start, []⟩ commands)
    (hname : upper (args.headD []) = "EXEC") (hready : s.conn.Ready queued) {n : Named} (hn : n ∈ s.named)
    {server : Server} {now : Int64} (hlooks : s.conn.Looks queued n server now)
    (hreports : s.conn.Reports n server now) (hchanged : n.ChangedIn server.touched) :
    ∃ d, handle args s.conn = .ok (.array none) d ∧ ReflTransGen Conn.Idle s.conn d := by
  have hheld : s.Held :=
    Lib.Runs.invariant (fun hs hp hstep => Watcher.step_held hs hp hstep) (fun n hn => absurd hn List.not_mem_nil) hone hrun
  obtain ⟨w, hwatch, hkey⟩ := hheld n hn
  obtain ⟨key, i, hfound⟩ := hreports hchanged w hwatch hkey
  cases hlooks with
  | check => exact exec_nil_at_check hname hready hwatch hfound
  | commit hws hcommits =>
      rw [← hws] at hwatch hfound
      exact exec_nil_at_commit hname hready hcommits hwatch hfound

end Resp

end

namespace Resp

section Samples

open Front Reference

local instance changedCodec : Codec := codec []

/-- SELECT is as it is; SET writes `b`. -/
local instance setsB : Commands where
  data name args := if name = "SELECT" then select args else do
    Cmd.put "b" (.str "x") 0
    return .ok
  waiting _ _ := pure .ok
  script _ _ _ := pure .ok
  sha1 _ := ""

/-- Another client writes `a` of the workspace `default`. -/
def writingA : Moment :=
  { quiet 5 with others := [.put "default" "a" (.str "x") 0 false (.still 5) (.error "")] }

def execNow : List Bytes := [asBytes "EXEC"]

/-- The connection watches `a`, and EXEC comes once another client wrote it. -/
def watchedA : Watcher :=
  ⟨connection server [quiet 5, quiet 5, quiet 5, writingA] 5, []⟩

def watchThenMulti : List (List Bytes) := [[asBytes "WATCH", asBytes "a"], [asBytes "MULTI"], [asBytes "SET"]]

instance (s : Watcher) (args : List Bytes) : Decidable (s.OneWorkspace args) :=
  inferInstanceAs (Decidable (_ → _))

/-- The engine reports the change of a watched key when EXEC comes. -/
def reported (c : Conn) : Bool :=
  match c.site.sess.watch with
  | none => false
  | some (ws, w) =>
      match changed ((c.site.moments 0).clock.now 0) w (c.site.after.server.engines ws) with
      | .ok (some _) _ => true
      | _ => false

theorem reports_of_reported {c : Conn} (h : reported c = true) (n : Named) :
    c.Reports n c.site.after.server ((c.site.moments 0).clock.now 0) := by
  intro _ w hwatch _
  simp only [reported, hwatch] at h
  split at h
  · next key i hchanged => exact ⟨key, i, hchanged⟩
  · exact absurd h (by simp)

/-- The state the run leads to. -/
def watchedAThen : Watcher := (Lib.Runs.run Watcher.step watchedA watchThenMulti).getD watchedA

theorem exec_nil_over_changed_key_sample :
    ∃ d, handle execNow watchedAThen.conn = .ok (.array none) d ∧ ReflTransGen Conn.Idle watchedAThen.conn d := by
  have hready : watchedAThen.conn.Ready [[asBytes "SET"]] :=
    ⟨by decide +kernel, by decide +kernel, by decide +kernel, Option.isNone_iff_eq_none.mp (by decide +kernel)⟩
  have hrun : Lib.Runs.run Watcher.step ⟨watchedA.conn, []⟩ watchThenMulti = some watchedAThen := rfl
  have hnamed : ⟨"default", "a", 0⟩ ∈ watchedAThen.named := by decide +kernel
  have hchanged : Named.ChangedIn ⟨"default", "a", 0⟩ watchedAThen.conn.site.after.server.touched := by decide +kernel
  exact exec_nil_over_changed_key hrun (by decide +kernel) (by decide +kernel) hready hnamed .check
    (reports_of_reported (by decide +kernel) _) hchanged

/-- Between two WATCHes the connection goes to another workspace. -/
def watchTwice : List (List Bytes) :=
  [[asBytes "WATCH", asBytes "a"], [asBytes "SELECT", asBytes "db1"], [asBytes "WATCH", asBytes "b"], [asBytes "MULTI"],
    [asBytes "SET"]]

def watchedTwice : Watcher :=
  ⟨connection server [quiet 5, quiet 5, quiet 5, quiet 5, quiet 5, quiet 5, quiet 5, writingA] 5, []⟩

/-- What EXEC answers after the commands, with the keys named then and what the
others have touched. -/
def execAfter (s : Watcher) (commands : List (List Bytes)) : Option (List Named × List (String × String) × Reply) :=
  (Lib.Runs.run Watcher.step s commands).bind fun s =>
    match handle execNow s.conn with
    | .ok r _ => some (s.named, s.conn.site.after.server.touched, r)
    | .error _ _ => none

theorem exec_runs_over_changed_key :
    execAfter watchedTwice watchTwice =
      some ([⟨"default", "a", 0⟩, ⟨"db1", "b", 0⟩], [("default", "a")], .array (some [.ok])) := by
  decide +kernel

end Samples

end Resp

end KivaDb
