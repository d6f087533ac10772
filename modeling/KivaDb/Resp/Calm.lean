import KivaDb.Front.Idle
import KivaDb.Resp.Watching

namespace KivaDb.Resp

open Lib.LittleEndian Lib.Utf8 Lib.Program Lib.Fallible Lib.Ignoring Front Relation

variable [External] [Chrono] [Codec] [Vectors]

/-- In this step the connection writes nothing and sends nothing. -/
def Conn.Idle (c d : Conn) : Prop := c.site.Idle d.site

/-- In this step the connection at most adds to the buffer of its transaction and
to the messages it holds back. -/
def Conn.Quiet (c d : Conn) : Prop := c.site.Quiet d.site ∧ (c.held.isSome = true → d.held.isSome = true)

/-- A transaction is open and messages are held back. -/
def Conn.buffering (c : Conn) : Bool := c.site.sess.txn.isSome && c.held.isSome

/-- Neither empties the database nor takes the session out of its workspace or
its transaction. -/
def Op.calm : Op → Bool
  | reset | leave | login _ _ => false
  | _ => true

theorem Conn.Quiet.buffering {c d : Conn} (h : c.Quiet d) (hc : c.buffering = true) : d.buffering = true := by
  simp only [Conn.buffering, Bool.and_eq_true] at hc ⊢
  refine ⟨?_, h.2 hc.2⟩
  obtain hsess | ⟨txn, writes, -, hsess⟩ := h.1.2
  · rw [hsess]
    exact hc.1
  · rw [hsess]
    rfl

omit [Codec] in
theorem lift_snd {α : Type} (m : S α) (c : Conn) : (c.lift m).2 = { c with site := left m c.site } := by
  unfold Conn.lift left
  cases m c.site with
  | ok a s => rfl
  | error e s => rfl

theorem site_quiet {c : Conn} {t : Site} (h : ReflTransGen Site.Quiet c.site t) :
    ReflTransGen Conn.Quiet c { c with site := t } := by
  induction h with
  | refl => exact .refl
  | @tail t u _ hstep ih =>
      have hconn : Conn.Quiet { c with site := t } { c with site := u } := ⟨hstep, id⟩
      exact ih.tail hconn

theorem lift_quiet {α : Type} {m : S α} {c : Conn} (hm : ReflTransGen Site.Quiet c.site (left m c.site)) :
    ReflTransGen Conn.Quiet c (c.lift m).2 := by
  rw [lift_snd]
  exact site_quiet hm

theorem site_idle {c : Conn} {t : Site} (h : ReflTransGen Site.Idle c.site t) :
    ReflTransGen Conn.Idle c { c with site := t } := by
  induction h with
  | refl => exact .refl
  | @tail t u _ hstep ih =>
      have hconn : Conn.Idle { c with site := t } { c with site := u } := hstep
      exact ih.tail hconn

omit [Codec] in
theorem session_ok {α : Type} {m : S α} {a : α} {c d : Conn} (h : session m c = .ok a d) :
    ∃ t, m c.site = .ok a t ∧ d = { c with site := t } := by
  unfold session Conn.lift at h
  cases hm : m c.site with
  | ok b t =>
      simp only [hm, EStateM.Result.ok.injEq] at h
      exact ⟨t, by rw [h.1], h.2.symm⟩
  | error e t => simp [hm] at h

theorem session_idle {α : Type} {m : S α} (hm : Within Site.Idle m) : Within Conn.Idle (session m) := by
  intro c
  have hleft := hm c.site
  unfold left session Conn.lift
  cases h : m c.site with
  | ok a s => exact site_idle (left_of_ok h ▸ hleft)
  | error e s => exact site_idle (left_of_error h ▸ hleft)

theorem reading_looks {α : Type} {m : Int64 → M α} (hm : ∀ now, Within Inner.Idle (m now)) :
    Within Site.Looks (reading m) :=
  pause_looks.bind fun _ => Within.get.bind fun _ => onEngine_looks (hm _) _

omit [Codec] in
theorem query_idle (f : Inner → Int64 → Result Bytes) (now : Int64) : Within Inner.Idle (query f now) :=
  Within.get.bind fun _ => Within.attempt _

theorem randomU64_looks : Within Site.Looks randomU64 := by
  refine pause_looks.bind fun m => ?_
  split
  · exact Within.pure _
  · exact Within.throw _

theorem switchWorkspace_open (ws : String) {s : Site} (h : s.sess.txn.isSome = true) :
    switchWorkspace ws s = .error (.invalid "cannot switch workspace inside a transaction") s := by
  show (if s.sess.txn.isSome = true then _ else _ : S Unit) s = _
  rw [if_pos h]
  rfl

/-- Only looks. -/
def Op.reads : Op → Bool
  | check _ | writable | kvGet _ | kvType _ | range | keysMatching _ | len | query _ | now | random | maxMembers
  | who | scripts => true
  | _ => false

theorem answer_looks {op : Op} (hop : op.reads = true) (c : Conn) :
    ∃ s, (answer op c).2 = { c with site := s } ∧ ReflTransGen Site.Looks c.site s := by
  have hself : ∃ s, c = { c with site := s } ∧ ReflTransGen Site.Looks c.site s := ⟨c.site, rfl, .refl⟩
  have hlift {α : Type} {m : S α} (hm : Within Site.Looks m) :
      ∃ s, (c.lift m).2 = { c with site := s } ∧ ReflTransGen Site.Looks c.site s := ⟨_, lift_snd m c, hm c.site⟩
  cases op with
  | check | writable | maxMembers | who | scripts => exact hself
  | kvGet key => exact hlift (kvGet_looks key)
  | kvType key => exact hlift (kvType_looks key)
  | range => exact hlift (reading_looks Engine.range_idle)
  | keysMatching pattern => exact hlift (reading_looks (Engine.keysMatching_idle pattern))
  | len => exact hlift (reading_looks fun _ => Engine.len_idle)
  | query f => exact hlift (reading_looks (query_idle f))
  | now => exact hlift (pause_looks.bind fun _ => Within.pure _)
  | random => exact hlift randomU64_looks
  | apply | reset | switchWorkspace | ensureWorkspace | leave | login | setHome | publish | listen | protocol
  | setScripts => exact absurd hop (by simp [Op.reads])

/-- The program only looks, whatever it is answered. -/
def Reads {α : Type} (p : Cmd α) : Prop := p.Asks fun op => op.reads = true

omit [Codec] in
theorem Reads.bind {α β : Type} {p : Cmd α} {f : α → Cmd β} (hp : Reads p) (hf : ∀ a, Reads (f a)) : Reads (p >>= f) :=
  Prog.Asks.bind hp hf

/-- A connection that buffers keeps to it, whatever it is asked for that is calm. -/
theorem answer_quiet {op : Op} (hop : op.calm = true) {c : Conn} (hc : c.buffering = true) :
    ReflTransGen Conn.Quiet c (answer op c).2 := by
  simp only [Conn.buffering, Bool.and_eq_true] at hc
  have hlooks (hreads : op.reads = true) : ReflTransGen Conn.Quiet c (answer op c).2 := by
    obtain ⟨s, hs, hlooks⟩ := answer_looks hreads c
    rw [hs]
    exact site_quiet (quiet_of_looks hlooks)
  cases op with
  | check | writable | kvGet | kvType | range | keysMatching | len | query | now | random | maxMembers | who
  | scripts => exact hlooks rfl
  | apply ops => exact lift_quiet (apply_quiet ops hc.1)
  | switchWorkspace ws =>
      refine lift_quiet ?_
      rw [left_of_error (switchWorkspace_open ws hc.1)]
  | ensureWorkspace ws => exact lift_quiet (quiet_of_looks (ensureWorkspace_looks ws c.site))
  | reset | leave | login => exact absurd hop (by simp [Op.calm])
  | publish channel message =>
      obtain ⟨held, hheld⟩ := Option.isSome_iff_exists.mp hc.2
      refine .single ?_
      simp only [answer, hheld]
      exact ⟨⟨.aside rfl rfl rfl rfl, .inl rfl⟩, fun _ => rfl⟩
  | setHome | listen | protocol | setScripts => exact .single ⟨⟨.aside rfl rfl rfl rfl, .inl rfl⟩, id⟩

/-- Everything the program asks for when it is run by the connection is calm. -/
def Conn.Calm {α : Type} (c : Conn) (p : Cmd α) : Prop := Prog.Along answer (fun _ op => op.calm = true) p c

theorem quiet_buffering {c d : Conn} (h : ReflTransGen Conn.Quiet c d) (hc : c.buffering = true) :
    d.buffering = true := by
  induction h with
  | refl => exact hc
  | tail _ hstep ih => exact hstep.buffering ih

theorem perform_quiet {α : Type} {p : Cmd α} {c : Conn} (hp : c.Calm p) (hc : c.buffering = true) :
    ReflTransGen Conn.Quiet c (c.perform p).2 :=
  Prog.run_keeps (I := fun d => ReflTransGen Conn.Quiet c d)
    (fun _ _ hd hop => hd.trans (answer_quiet hop (quiet_buffering hd hc))) p .refl hp

/-- The session is where it was, with a transaction that began where it began. -/
theorem quiet_session {c d : Conn} (h : ReflTransGen Conn.Quiet c d) : c.site.sess.Buffers d.site.sess := by
  induction h with
  | refl => exact .inl rfl
  | tail _ hstep ih => exact ih.trans hstep.1.2

theorem quiet_idle {c d : Conn} (h : ReflTransGen Conn.Quiet c d) : ReflTransGen Conn.Idle c d :=
  ReflTransGen.mono (fun _ _ hstep => hstep.1.1) _ _ h

section Commands

variable [Commands]

/-- The queued command is calm when it is run by the connection. -/
def CalmCommand (args : List Bytes) (c : Conn) : Prop :=
  let name := upper (args.headD [])
  name ∈ notInMulti ∨ name ∉ ["DISCARD", "WATCH", "UNWATCH"] ∧
    if name ∈ evals then ∀ script d, scriptOf name args c = .ok script d → d.Calm script
    else c.Calm (Commands.data name args)

/-- Each command of the queue is calm when its turn comes. -/
def CalmQueue : List (List Bytes) → Conn → Prop
  | [], _ => True
  | args :: rest, c => CalmCommand args c ∧ CalmQueue rest (left (runOne args) c)

omit [Commands] in
theorem given_quiet {α : Type} (r : Except Reply α) : Within Conn.Quiet (given r) := by
  cases r with
  | ok a => exact Within.pure a
  | error e => exact Within.throw e

omit [Commands] in
theorem checked_quiet (need : Need) : Within Conn.Quiet (checked need) := by
  refine Within.get.bind fun c => ?_
  split
  · exact Within.pure ()
  · exact Within.throw _

theorem scriptOf_quiet (name : String) (args : List Bytes) : Within Conn.Quiet (scriptOf name args) := by
  have hsource (arg : Bytes) : Within Conn.Quiet (scriptSource name arg) := by
    unfold scriptSource
    split
    · refine (given_quiet _).bind fun sha => Within.get.bind fun c => ?_
      split
      · exact Within.pure _
      · exact Within.throw _
    · refine (given_quiet _).bind fun source => Within.bind (fun c => ?_) fun _ => Within.pure source
      exact .single ⟨⟨.aside rfl rfl rfl rfl, .inl rfl⟩, id⟩
  refine (given_quiet _).bind fun _ => (checked_quiet _).bind fun _ => ?_
  refine (hsource _).bind fun source => (given_quiet _).bind fun n => ?_
  split
  · exact Within.throw _
  · split
    · exact Within.throw _
    · exact Within.pure _

omit [Commands] in
theorem performed_quiet {p : Cmd Reply} {c : Conn} (hp : c.Calm p) (hc : c.buffering = true) :
    ReflTransGen Conn.Quiet c (left (do given (← performed p) : C Reply) c) := by
  have hrun : (do given (← performed p) : C Reply) c = given (c.perform p).1 (c.perform p).2 := rfl
  have hleft : left (do given (← performed p) : C Reply) c = left (given (c.perform p).1) (c.perform p).2 := by
    unfold left
    rw [hrun]
  rw [hleft]
  exact (perform_quiet hp hc).trans (given_quiet _ _)

omit [Codec] [Commands] in
theorem left_reply (m : C Reply) (c : Conn) : left (reply m) c = left m c := by
  unfold left reply
  cases m c with
  | ok r d => rfl
  | error r d => rfl

omit [Commands] in
/-- In a transaction a script writes to the buffer. -/
theorem eval_open (script : Cmd Reply) {c : Conn} (hc : c.site.sess.txn.isSome = true) :
    eval script c = (do given (← performed script) : C Reply) c := by
  have himp : c.implicit = false := by
    obtain ⟨txn, htxn⟩ := Option.isSome_iff_exists.mp hc
    simp only [Conn.implicit, htxn, Option.isNone_some, Bool.false_and]
  show (if c.implicit = true then evalAlone script else _ : C Reply) c = _
  rw [if_neg (by simp [himp])]

theorem evalCommand_quiet {name : String} {args : List Bytes} {c : Conn}
    (h : ∀ script d, scriptOf name args c = .ok script d → d.Calm script) (hc : c.buffering = true) :
    ReflTransGen Conn.Quiet c (left (evalCommand name args) c) := by
  unfold evalCommand
  cases hscript : scriptOf name args c with
  | error e d =>
      rw [left_bind_error hscript]
      exact (scriptOf_quiet name args).error hscript
  | ok script d =>
      have hd := (scriptOf_quiet name args).ok hscript
      have hbuf := quiet_buffering hd hc
      have htxn : d.site.sess.txn.isSome = true := (Bool.and_eq_true _ _ ▸ hbuf : _ ∧ _).1
      have hleft : left (eval script) d = left (do given (← performed script) : C Reply) d := by
        unfold left
        rw [eval_open script htxn]
      rw [left_bind_ok hscript, hleft]
      exact hd.trans (performed_quiet (h script d hscript) hbuf)

theorem runOne_quiet {args : List Bytes} {c : Conn} (h : CalmCommand args c) (hc : c.buffering = true) :
    ReflTransGen Conn.Quiet c (left (runOne args) c) := by
  unfold runOne
  dsimp only
  split
  · exact .refl
  next hname =>
  rw [left_reply]
  obtain h | ⟨hother, h⟩ := h
  · exact absurd h hname
  simp only [List.mem_cons, List.not_mem_nil, or_false, not_or] at hother
  have hmulti : upper (args.headD []) ≠ "MULTI" := fun heq => hname (heq ▸ (by decide))
  unfold run
  rw [if_neg hmulti, if_neg hother.1, if_neg hother.2.1, if_neg hother.2.2]
  split at h
  · next heval =>
      rw [if_pos heval]
      exact evalCommand_quiet h hc
  · next heval =>
      rw [if_neg heval]
      exact performed_quiet h hc

theorem runOne_ok (args : List Bytes) (c : Conn) : ∃ r, runOne args c = .ok r (left (runOne args) c) := by
  unfold runOne left
  dsimp only
  split
  · exact ⟨_, rfl⟩
  · unfold reply
    cases run (upper (args.headD [])) args c with
    | ok r d => exact ⟨r, rfl⟩
    | error r d => exact ⟨r, rfl⟩

theorem runQueued_quiet {queued : List (List Bytes)} {c : Conn} (h : CalmQueue queued c) (hc : c.buffering = true) :
    ∃ replies d, runQueued queued c = .ok replies d ∧ ReflTransGen Conn.Quiet c d := by
  induction queued generalizing c with
  | nil => exact ⟨[], c, rfl, .refl⟩
  | cons args rest ih =>
      obtain ⟨r, hr⟩ := runOne_ok args c
      have hone := runOne_quiet h.1 hc
      obtain ⟨replies, d, hrest, hquiet⟩ := ih h.2 (quiet_buffering hone hc)
      refine ⟨r :: replies, d, ?_, hone.trans hquiet⟩
      simp only [runQueued, bind, EStateM.bind, hr, hrest]
      rfl

end Commands

end KivaDb.Resp
