import KivaDb.Engine.Views
import KivaDb.Lib.Fallible

namespace KivaDb.Front

open Lib.LittleEndian Lib.Utf8 Crypt

inductive Role
  | admin
  | editor
  | viewer
  deriving DecidableEq

inductive Priv
  | read
  | write
  deriving DecidableEq

/-- What a command needs of the session that runs it. -/
inductive Need
  | none
  | read
  | write
  | admin
  | login
  deriving DecidableEq

structure UserCtx where
  name : String
  role : Role
  deriving DecidableEq

/-- What a read returns besides the value itself. -/
structure Meta where
  expiresAt : Int64
  msgpack : Bool
  timestamp : Int64
  deriving DecidableEq

/-- A message of a channel of the workspace `scope`. -/
structure Held where
  scope : String
  channel : Bytes
  message : Bytes
  deriving DecidableEq

variable [External] [Chrono] [Codec] [Vectors]

inductive TxOp
  | put (value : Value) (expiresAt : Int64) (msgpack : Bool)
  | del

abbrev Writes := Std.ExtTreeMap String TxOp compare

/-- Buffered writes of an open transaction. -/
structure Txn where
  beginSeq : Nat
  writes : Writes
  savepoints : List (String × Writes)

/-- One user working in one workspace, possibly inside a transaction. The engine
of a workspace goes by the workspace's name; a session in none has the name `""`. -/
structure Session where
  user : Option UserCtx
  ws : String
  wsPriv : Option Priv
  txn : Option Txn
  wrote : Bool
  /-- Keys watched by Redis `WATCH`, with the workspace they belong to. -/
  watch : Option (String × List WatchedKey)

/-- What the sessions of an instance share. -/
structure Server where
  engines : String → Inner
  workspaces : List String
  /-- The master of a replica. -/
  replicaOf : Option String
  maxMembers : Nat
  /-- Who logs in with a name and a password, and the workspace they arrive in. -/
  accounts : String → String → Result (UserCtx × Option (String × Priv))
  access : String → String → Option Priv
  receivers : Held → Int64
  /-- Lua scripts by SHA-1. -/
  scripts : List (String × String)
  /-- The messages sent so far. -/
  sent : List Held
  /-- What clients other than the session have written or deleted so far. -/
  touched : List (String × String)

/-- A write or a deletion by another client. -/
inductive Change
  | put (ws key : String) (value : Value) (expiresAt : Int64) (msgpack : Bool) (clock : Clock) (nonce : Draw)
  | delete (ws key : String) (clock : Clock) (nonce : Draw)

namespace Server

def set (s : Server) (ws : String) (i : Inner) : Server :=
  { s with engines := fun w => if w = ws then i else s.engines w }

/-- What another client does: a failed call touches nothing. -/
def apply (s : Server) : Change → Server
  | .put ws key value expiresAt msgpack clock nonce =>
      match KivaDb.put key value expiresAt msgpack clock nonce (s.engines ws) with
      | .ok _ i => { s.set ws i with touched := s.touched ++ [(ws, key)] }
      | .error _ i => s.set ws i
  | .delete ws key clock nonce =>
      match KivaDb.delete key clock nonce (s.engines ws) with
      | .ok true i => { s.set ws i with touched := s.touched ++ [(ws, key)] }
      | .ok false i => s.set ws i
      | .error _ i => s.set ws i

end Server

/-- What there is when a session turns to an engine: the changes other clients
made meanwhile, the clock, the draws, whether a workspace can be opened. -/
structure Moment where
  others : List Change
  clock : Clock
  draws : Nat → Draw
  random : Except String UInt64
  fileId : Except String UInt64
  opens : Result Unit

/-- A session, its server and the moments to come. -/
structure Site where
  sess : Session
  server : Server
  moments : Nat → Moment

/-- An operation of a session. -/
abbrev S := EStateM KivaError Site

/-- The site once the others had their turn. -/
def Site.after (s : Site) : Site :=
  { s with server := (s.moments 0).others.foldl Server.apply s.server, moments := fun n => s.moments (n + 1) }

/-- The others take their turn. -/
def pause : S Moment := fun site => .ok (site.moments 0) site.after

def require (r : Result Unit) : S Unit :=
  match r with
  | .ok () => pure ()
  | .error e => throw e

def onEngine {α : Type} (ws : String) (m : M α) : S α := fun site =>
  match m (site.server.engines ws) with
  | .ok a i => .ok a { site with server := site.server.set ws i }
  | .error e i => .error e { site with server := site.server.set ws i }

def setSession (f : Session → Session) : S Unit := modify fun site => { site with sess := f site.sess }

namespace Session

def check (s : Session) : Need → Result Unit
  | .none => .ok ()
  | need =>
      match s.user with
      | none => .error (.denied "authentication required. Use: auth <user> <password>")
      | some u =>
          if (need = .read ∨ need = .write) ∧ s.wsPriv = none then
            .error (.denied "you are in no workspace: 'workspace list' shows the ones you can use, 'workspace switch <name>' enters one")
          else
            match need with
            | .admin => if u.role = .admin then .ok () else .error (.denied "this command requires the admin role")
            | .write =>
                if u.role = .viewer then .error (.denied "the viewer role is read-only")
                else if s.wsPriv = some .write then .ok ()
                else .error (.denied s!"you only have read access to workspace '{s.ws}'")
            | _ => .ok ()

/-- What an open transaction holds for `key`. -/
def buffered (s : Session) (key : String) : Option TxOp := s.txn.bind fun t => t.writes[key]?

end Session

/-- Whether the session may modify data right now. -/
def Site.writable (site : Site) : Result Unit := do
  site.sess.check .write
  match site.server.replicaOf with
  | some master =>
      .error (.readOnly s!"this node is a replica of {master}; write to the master or run 'replica promote'")
  | none => .ok ()

def kvGet (key : String) : S (Option (Value × Meta)) := do
  let m ← pause
  let s := (← get).sess
  require (s.check .read)
  match s.buffered key with
  | some (.put value expiresAt msgpack) => return some (value, ⟨expiresAt, msgpack, 0⟩)
  | some .del => return none
  | none =>
      match ← onEngine s.ws (Engine.get key (m.clock.now 0)) with
      | some (v, e) => return some (v, ⟨e.expiresAt, e.isMsgpack, e.timestamp⟩)
      | none => return none

/-- The type of `key` without reading its value from disk. -/
def kvType (key : String) : S (Option Ty) := do
  let m ← pause
  let s := (← get).sess
  require (s.check .read)
  match s.buffered key with
  | some (.put value _ _) => return some value.ty
  | some .del => return none
  | none => return (← onEngine s.ws (Engine.meta_ key (m.clock.now 0))).map (·.ty)

/-- The keys a batch writes (not those it deletes). -/
def putKeys (ops : List BatchOp) : List String :=
  ops.filterMap fun
    | .put key _ _ _ => some key
    | .del _ => none

/-- Adds operations to the buffer; the ones before an invalid key stay in it. -/
def bufferAll : List BatchOp → Writes → Result Unit × Writes
  | [], w => (.ok (), w)
  | .put key value expiresAt msgpack :: ops, w =>
      if key = "" ∨ Format.maxKeyLen < (asBytes key).length then (.error (.invalid "invalid key length"), w)
      else bufferAll ops (w.insert key (.put value expiresAt msgpack))
  | .del key :: ops, w => bufferAll ops (w.insert key .del)

/-- Keeps operations back until the transaction commits. -/
def buffer (ops : List BatchOp) (txn : Txn) : S Unit := do
  setSession fun s => { s with txn := some { txn with writes := (bufferAll ops txn.writes).2 } }
  require (bufferAll ops txn.writes).1

/-- Applies operations to the engine, as one batch when there are several. -/
def write (ws : String) (ops : List BatchOp) (m : Moment) : S Unit :=
  match ops with
  | [.put key value expiresAt msgpack] => do
      let _ ← onEngine ws (put key value expiresAt msgpack m.clock (m.draws 0))
      return ()
  | [.del key] => do
      let _ ← onEngine ws (delete key m.clock (m.draws 0))
      return ()
  | ops => onEngine ws (applyBatchWatched ops none none m.clock m.draws)

/-- Applies operations atomically: buffered if a transaction is open, otherwise
written to the engine. -/
def apply (ops : List BatchOp) : S Unit := do
  let m ← pause
  let site ← get
  require site.writable
  match site.sess.txn with
  | some txn => buffer ops txn
  | none =>
      onEngine site.sess.ws (Engine.checkRoom (putKeys ops) (m.clock.now 0))
      setSession fun s => { s with wrote := true }
      let m ← pause
      write site.sess.ws ops m

def begin_ : S Unit := do
  let _ ← pause
  let site ← get
  require site.writable
  match site.sess.txn with
  | some _ => throw (.invalid "a transaction is already active")
  | none =>
      let beginSeq ← onEngine site.sess.ws txnBegin
      setSession fun s => { s with txn := some { beginSeq, writes := ∅, savepoints := [] } }

/-- The operations a transaction commits. -/
def Txn.ops (t : Txn) : List BatchOp :=
  t.writes.toList.map fun p =>
    match p.2 with
    | .put value expiresAt msgpack => .put p.1 value expiresAt msgpack
    | .del => .del p.1

/-- The watched keys a commit checks together with its writes, and the key of
another workspace that changed. -/
def watchedOf (s : Session) : S (Option (List WatchedKey) × Option String) := do
  let m ← pause
  match s.watch with
  | none => return (none, none)
  | some (ws, w) =>
      if ws = s.ws then return (some w, none)
      else return (none, ← onEngine ws (Engine.watchConflict w (m.clock.now 0)))

/-- Whether the transaction may be written: returns the workspace it is for. -/
def commitRoom (txn : Txn) : S String := do
  let m ← pause
  let site ← get
  require site.writable
  onEngine site.sess.ws (Engine.checkRoom (putKeys txn.ops) (m.clock.now 0))
  return site.sess.ws

/-- Writes the batch of a transaction. -/
def commitOps (txn : Txn) (same : Option (List WatchedKey)) (other : Option String) : S Unit := do
  let ws ← commitRoom txn
  match other with
  | some key => throw (.conflict s!"the watched key '{key}' changed")
  | none =>
      let m ← pause
      onEngine ws (applyBatchWatched txn.ops (some txn.beginSeq) same m.clock m.draws)

/-- Ends the transaction or the watch on the engine of `ws`. -/
def endOn (ws : String) : S Unit := do
  let _ ← pause
  onEngine ws txnEnd

/-- The outcome of an operation, as a value. -/
def outcome {α : Type} (m : S α) : S (Except KivaError α) := fun site =>
  match m site with
  | .ok a site => .ok (.ok a) site
  | .error e site => .ok (.error e) site

/-- Commits the transaction taken from the session `s`. -/
def commitTaken (s : Session) (txn : Txn) : S Nat := do
  let (same, other) ← watchedOf s
  let res ← outcome (commitOps txn same other)
  endOn s.ws
  match res with
  | .error e => throw e
  | .ok () =>
      setSession fun s => { s with wrote := 0 < txn.writes.size }
      return txn.writes.size

/-- Commits the open transaction. Returns the number of keys written. -/
def commit : S Nat := do
  let s := (← get).sess
  match s.txn with
  | none => throw (.invalid "no active transaction")
  | some txn =>
      setSession fun s => { s with txn := none }
      commitTaken s txn

/-- Discards the open transaction, if any. -/
def rollback : S Unit := do
  let s := (← get).sess
  match s.txn with
  | none => return ()
  | some _ =>
      setSession fun s => { s with txn := none }
      endOn s.ws

/-- Forgets the watched keys. -/
def unwatch : S Unit := do
  let _ ← pause
  match (← get).sess.watch with
  | none => return ()
  | some (ws, _) =>
      setSession fun s => { s with watch := none }
      onEngine ws txnEnd

/-- Watches `keys` beside those of `w`: the engine holds one watch already. -/
def watchMore (ws : String) (keys : List String) (w : List WatchedKey) : S Unit := do
  let _ ← pause
  let m ← pause
  let more ← onEngine ws (watch keys (m.clock.now 0))
  endOn ws
  setSession fun s => { s with watch := some (ws, w ++ more) }

/-- Watches `keys` instead of what was watched. -/
def watchAnew (ws : String) (keys : List String) : S Unit := do
  unwatch
  let m ← pause
  let w ← onEngine ws (watch keys (m.clock.now 0))
  let _ ← pause
  setSession fun s => { s with watch := some (ws, w) }

/-- Watches `keys` of the current workspace; the next commit fails as a conflict
if one of them changes meanwhile. -/
def watchKeys (keys : List String) : S Unit := do
  let s := (← get).sess
  match s.watch.filter fun p => p.1 = s.ws with
  | some (ws, w) => watchMore ws keys w
  | none => watchAnew s.ws keys

def enter (ws : String) (level : Priv) : S Unit := do
  let m ← pause
  require m.opens
  setSession fun s => { s with ws := ws, wsPriv := some level }

/-- Leaves the current workspace for none. -/
def leave : S Unit := setSession fun s => { s with ws := "", wsPriv := none }

def switchWorkspace (ws : String) : S Unit := do
  let site ← get
  if site.sess.txn.isSome then throw (.invalid "cannot switch workspace inside a transaction")
  else
    match site.sess.user with
    | none => throw (.denied "authentication required")
    | some u =>
        if ws ∉ site.server.workspaces then throw (.notFound s!"workspace '{ws}' does not exist")
        else if u.role = .admin then enter ws .write
        else
          match site.server.access u.name ws with
          | none => throw (.denied s!"no access to workspace '{ws}'")
          | some level => enter ws level

/-- Creates the workspace if it does not exist. -/
def ensureWorkspace (ws : String) : S Unit := do
  let m ← pause
  if ws ∈ (← get).server.workspaces then return ()
  else
    require m.opens
    modify fun site => { site with server := { site.server with workspaces := ws :: site.server.workspaces } }

/-- Verifies credentials and enters the workspace the user arrives in. -/
def login (name password : String) : S Unit := do
  match (← get).server.accounts name password with
  | .error e => throw e
  | .ok (user, arrival) =>
      rollback
      setSession fun s => { s with user := some user }
      match arrival with
      | some (ws, level) => enter ws level
      | none => leave

end KivaDb.Front
