import KivaDb.Resp.Commands

namespace KivaDb.Resp

open Lib.LittleEndian Lib.Utf8 Lib.Program Front

variable [External] [Chrono] [Codec] [Vectors]

/-- What the commands do that are neither about transactions nor scripts, and
what a Lua script does: each asks its connection for one thing after the other. -/
class Commands where
  data : String → List Bytes → Cmd Reply
  /-- A command that may wait, as often as it tries. -/
  waiting : String → List Bytes → Cmd Reply
  /-- A script with its keys and its other arguments. -/
  script : String → List Bytes → List Bytes → Cmd Reply
  sha1 : Bytes → String

variable [Commands]

/-- What a connection does on a command: a reply, or an error reply. -/
abbrev C := EStateM Reply Conn

/-- A session operation of the connection. -/
def session {α : Type} (m : S α) : C α := fun c =>
  match c.lift m with
  | (.ok a, c) => .ok a c
  | (.error e, c) => .error (.ofError e) c

/-- The outcome of a session operation, as a value. -/
def attempted {α : Type} (m : S α) : C (Except KivaError α) := fun c => .ok (c.lift m).1 (c.lift m).2

def performed (p : Cmd Reply) : C (Except Reply Reply) := fun c => .ok (c.perform p).1 (c.perform p).2

def given {α : Type} (r : Except Reply α) : C α :=
  match r with
  | .ok a => pure a
  | .error e => throw e

def checked (need : Need) : C Unit := do
  match (← get).site.sess.check need with
  | .ok () => return ()
  | .error e => throw (.ofError e)

/-- Takes the messages held so far. -/
def takeHeld : C (List Held) := do
  let held := (← get).held
  modify fun c => { c with held := none }
  return held.getD []

/-- Commits what a script wrote when it ended without error, and discards it
otherwise. -/
def settle : Except Reply Reply → C Reply
  | .ok r => do
      let held ← takeHeld
      let _ ← session commit
      modify fun c => c.send held
      return r
  | .error e => do
      let _ ← takeHeld
      session rollback
      throw e

/-- Runs a script in a transaction of its own. -/
def evalAlone (script : Cmd Reply) : C Reply := do
  session begin_
  modify fun c => { c with held := some [] }
  settle (← performed script)

/-- A read-only user (or replica) runs a script without a transaction. -/
def Conn.implicit (c : Conn) : Bool := c.site.sess.txn.isNone && c.site.writable.isOk

/-- Runs a Lua script, all or nothing: its writes are committed together when it
ends without error, and discarded otherwise. -/
def eval (script : Cmd Reply) : C Reply := do
  if (← get).implicit then evalAlone script else given (← performed script)

/-- The source of a script: by its SHA-1, or as it is sent. -/
def scriptSource (name : String) (arg : Bytes) : C String := do
  if name = "EVALSHA" ∨ name = "EVALSHA_RO" then
    let sha ← given (text arg)
    match (← get).site.server.scripts.lookup sha.toLower with
    | some source => return source
    | none => throw (.error "NOSCRIPT No matching script. Please use EVAL.")
  else
    let source ← given (text arg)
    modify fun c =>
      { c with site := { c.site with server :=
        { c.site.server with scripts := (Commands.sha1 arg, source) :: c.site.server.scripts } } }
    return source

/-- The script a command runs, with its keys and its other arguments. -/
def scriptOf (name : String) (args : List Bytes) : C (Cmd Reply) := do
  given (arity args 3)
  checked .read
  let source ← scriptSource name (args.getD 1 [])
  let n ← given (int (args.getD 2 []))
  if n < 0 then throw (.err "Number of keys can't be negative")
  else if args.length - 3 < n.toInt.toNat then throw (.err "Number of keys can't be greater than number of args")
  else
    let rest := args.drop 3
    return Commands.script source (rest.take n.toInt.toNat) (rest.drop n.toInt.toNat)

def evalCommand (name : String) (args : List Bytes) : C Reply := do eval (← scriptOf name args)

def evals : List String := ["EVAL", "EVAL_RO", "EVALSHA", "EVALSHA_RO"]

/-- The keys a WATCH names. -/
def keysOf (args : List Bytes) : Except Reply (List String) := args.mapM key

def watchCommand (args : List Bytes) : C Reply := do
  given (arity args 2)
  if (← get).queued.isSome then throw (.err "WATCH inside MULTI is not allowed")
  else
    checked .read
    let keys ← given (keysOf args.tail)
    session (watchKeys keys)
    return .ok

/-- Every command but EXEC. -/
def run (name : String) (args : List Bytes) : C Reply := do
  if name = "MULTI" then
    if (← get).queued.isSome then throw (.err "MULTI calls can not be nested")
    else
      modify fun c => { c with queued := some [], aborted := false }
      return .ok
  else if name = "DISCARD" then
    match (← get).queued with
    | none => throw (.err "DISCARD without MULTI")
    | some _ =>
        modify fun c => { c with queued := none }
        session unwatch
        return .ok
  else if name = "WATCH" then watchCommand args
  else if name = "UNWATCH" then
    session unwatch
    return .ok
  else if name ∈ evals then evalCommand name args
  else given (← performed (Commands.data name args))

/-- The reply of a command, its error one included. -/
def reply (m : C Reply) : C Reply := fun c =>
  match m c with
  | .ok r c => .ok r c
  | .error r c => .ok r c

/-- Commands that are refused when a transaction runs them. -/
def notInMulti : List String :=
  ["FLUSHDB", "FLUSHALL", "MULTI", "EXEC", "SUBSCRIBE", "PSUBSCRIBE", "UNSUBSCRIBE", "PUNSUBSCRIBE"]

/-- Runs a queued command. -/
def runOne (args : List Bytes) : C Reply :=
  let name := upper (args.headD [])
  if name ∈ notInMulti then pure (.err s!"{name} is not allowed inside MULTI") else reply (run name args)

def runQueued : List (List Bytes) → C (List Reply)
  | [] => return []
  | args :: rest => do
      let r ← runOne args
      return r :: (← runQueued rest)

/-- The first watched key found changed, wherever the watch is. -/
def watchConflict : S (Option String) := do
  let m ← pause
  match (← get).sess.watch with
  | none => return none
  | some (ws, w) => onEngine ws (Engine.watchConflict w (m.clock.now 0))

/-- Runs the queued commands in the open transaction and commits it. -/
def execOpen (queued : List (List Bytes)) : C Reply := do
  modify fun c => { c with held := some [] }
  let replies ← runQueued queued
  let held ← takeHeld
  match ← attempted commit with
  | .error (.conflict _) => return .array none
  | .error other => return .ofError other
  | .ok _ =>
      modify fun c => c.send held
      return .array (some replies)

/-- Runs the queued commands, in one transaction where the session may write. -/
def execQueue (queued : List (List Bytes)) : C Reply := do
  match ← attempted begin_ with
  | .ok () => execOpen queued
  | .error _ =>
      let replies ← runQueued queued
      let held ← takeHeld
      modify fun c => c.send held
      return .array (some replies)

def exec : C Reply := do
  let c ← get
  match c.queued with
  | none => throw (.err "EXEC without MULTI")
  | some queued =>
      modify fun c => { c with queued := none, aborted := false }
      if c.aborted then throw (.error "EXECABORT Transaction discarded because of previous errors.")
      else if c.site.sess.txn.isSome then throw (.err "a transaction is already open on this session")
      else
        -- a watched key changed already: nothing runs
        match ← session watchConflict with
        | some _ => return .array none
        | none => execQueue queued

/-- EXEC: the watch ends with it, however it went. -/
def execCommand : C Reply := do
  let r ← reply exec
  session unwatch
  return r

/-- Commands a client in RESP2 may send while it listens to channels. -/
def whileSubscribed : List String :=
  ["SUBSCRIBE", "PSUBSCRIBE", "UNSUBSCRIBE", "PUNSUBSCRIBE", "PING", "QUIT", "RESET"]

/-- Commands that may wait for data. -/
def isBlocking : List String :=
  ["BLPOP", "BRPOP", "BRPOPLPUSH", "BLMOVE", "BLMPOP", "BZPOPMIN", "BZPOPMAX", "BZMPOP", "XREAD", "XREADGROUP"]

/-- Why a command is not even queued. -/
def turnedAway (c : Conn) (name : String) : Option Reply :=
  if 0 < c.subs ∧ c.resp3 = false ∧ name ∉ whileSubscribed then
    some (.err s!"Can't execute '{name.toLower}': only (P|S)SUBSCRIBE / (P)UNSUBSCRIBE / PING / QUIT / RESET are allowed in this context")
  else if c.site.sess.user = none ∧ name ∉ ["AUTH", "HELLO", "PING", "QUIT", "ECHO"] then
    some (.error "NOAUTH Authentication required.")
  else none

/-- Runs a command at once. -/
def runNow (name : String) (args : List Bytes) : C Reply := do
  if name = "EXEC" then execCommand
  else if (← get).queued = none ∧ name ∈ isBlocking then given (← performed (Commands.waiting name args))
  else run name args

/-- Commands that MULTI does not queue. -/
def notQueued : List String := ["EXEC", "DISCARD", "MULTI", "QUIT", "WATCH"]

def handle (args : List Bytes) : C Reply := do
  let name := upper (args.headD [])
  let c ← get
  match turnedAway c name with
  | some r => return r
  | none =>
      match refuse name args with
      | some refused =>
          -- a refused command makes the whole MULTI fail
          modify fun c => if c.queued.isSome then { c with aborted := true } else c
          return refused
      | none =>
          match c.queued with
          | some queue =>
              if name ∈ notQueued then reply (runNow name args)
              else
                modify fun c => { c with queued := some (queue ++ [args]) }
                return .simple "QUEUED"
          | none => reply (runNow name args)

section Handled

variable {args : List Bytes} {c : Conn}

theorem handle_away {r : Reply} (h : turnedAway c (upper (args.headD [])) = some r) : handle args c = .ok r c := by
  show (match turnedAway c (upper (args.headD [])) with | some r => pure r | none => _ : C Reply) c = _
  rw [h]
  rfl

theorem handle_refused (haway : turnedAway c (upper (args.headD [])) = none) {r : Reply}
    (h : refuse (upper (args.headD [])) args = some r) :
    handle args c = .ok r (if c.queued.isSome then { c with aborted := true } else c) := by
  show (match turnedAway c (upper (args.headD [])) with | some r => pure r | none => _ : C Reply) c = _
  rw [haway]
  show (match refuse (upper (args.headD [])) args with | some refused => _ | none => _ : C Reply) c = _
  rw [h]
  rfl

theorem handle_queued (haway : turnedAway c (upper (args.headD [])) = none)
    (hsup : refuse (upper (args.headD [])) args = none) {queue : List (List Bytes)} (hq : c.queued = some queue)
    (h : upper (args.headD []) ∉ notQueued) :
    handle args c = .ok (.simple "QUEUED") { c with queued := some (queue ++ [args]) } := by
  show (match turnedAway c (upper (args.headD [])) with | some r => pure r | none => _ : C Reply) c = _
  rw [haway]
  show (match refuse (upper (args.headD [])) args with | some refused => _ | none => _ : C Reply) c = _
  rw [hsup]
  show (match c.queued with | some queue => _ | none => _ : C Reply) c = _
  rw [hq]
  show (if upper (args.headD []) ∈ notQueued then _ else _ : C Reply) c = _
  rw [if_neg h]
  rfl

theorem handle_now (haway : turnedAway c (upper (args.headD [])) = none)
    (hsup : refuse (upper (args.headD [])) args = none)
    (h : c.queued = none ∨ upper (args.headD []) ∈ notQueued) :
    handle args c = reply (runNow (upper (args.headD [])) args) c := by
  show (match turnedAway c (upper (args.headD [])) with | some r => pure r | none => _ : C Reply) c = _
  rw [haway]
  show (match refuse (upper (args.headD [])) args with | some refused => _ | none => _ : C Reply) c = _
  rw [hsup]
  show (match c.queued with | some queue => _ | none => _ : C Reply) c = _
  cases hq : c.queued with
  | none => rfl
  | some queue =>
      have hname : upper (args.headD []) ∈ notQueued := h.resolve_left (by simp [hq])
      show (if upper (args.headD []) ∈ notQueued then _ else _ : C Reply) c = _
      rw [if_pos hname]

end Handled

end KivaDb.Resp
