import KivaDb.Front.Session
import KivaDb.Lib.Program
import KivaDb.Resp.Reply

namespace KivaDb.Resp

open Lib.LittleEndian Lib.Utf8 Lib.Program Front

/-- Every command the dispatcher runs, sorted. -/
def supported : List String :=
  ["APPEND", "AUTH", "BLMOVE", "BLMPOP", "BLPOP", "BRPOP", "BRPOPLPUSH", "BZMPOP", "BZPOPMAX", "BZPOPMIN", "CLIENT",
    "COMMAND", "COPY", "DBSIZE", "DECR", "DECRBY", "DEL", "DISCARD", "ECHO", "EVAL", "EVALSHA", "EVALSHA_RO",
    "EVAL_RO", "EXEC", "EXISTS", "EXPIRE", "EXPIREAT", "EXPIRETIME", "FLUSHALL", "FLUSHDB", "GET", "GETDEL", "GETEX",
    "GETRANGE", "GETSET", "HDEL", "HELLO", "HEXISTS", "HGET", "HGETALL", "HINCRBY", "HINCRBYFLOAT", "HKEYS", "HLEN",
    "HMGET", "HMSET", "HRANDFIELD", "HSCAN", "HSET", "HSETNX", "HSTRLEN", "HVALS", "INCR", "INCRBY", "INCRBYFLOAT",
    "INFO", "JSON.ARRAPPEND", "JSON.ARRINSERT", "JSON.ARRLEN", "JSON.DEL", "JSON.FORGET", "JSON.GET", "JSON.MGET",
    "JSON.NUMINCRBY", "JSON.NUMMULTBY", "JSON.OBJKEYS", "JSON.OBJLEN", "JSON.SET", "JSON.STRLEN", "JSON.TYPE",
    "KEYS", "KIVA.API", "KIVA.SIMILAR", "LINDEX", "LINSERT", "LLEN", "LMOVE", "LMPOP", "LPOP", "LPOS", "LPUSH",
    "LPUSHX", "LRANGE", "LREM", "LSET", "LTRIM", "MGET", "MSET", "MSETNX", "MULTI", "PERSIST", "PEXPIRE",
    "PEXPIREAT", "PEXPIRETIME", "PING", "PSETEX", "PSUBSCRIBE", "PTTL", "PUBLISH", "PUBSUB", "PUNSUBSCRIBE", "QUIT",
    "RENAME", "RENAMENX", "RPOP", "RPOPLPUSH", "RPUSH", "RPUSHX", "SADD", "SCAN", "SCARD", "SCRIPT", "SDIFF",
    "SDIFFSTORE", "SELECT", "SET", "SETEX", "SETNX", "SETRANGE", "SINTER", "SINTERCARD", "SINTERSTORE", "SISMEMBER",
    "SMEMBERS", "SMISMEMBER", "SMOVE", "SPOP", "SRANDMEMBER", "SREM", "SSCAN", "STRLEN", "SUBSCRIBE", "SUBSTR",
    "SUNION", "SUNIONSTORE", "TIME", "TOUCH", "TTL", "TYPE", "UNLINK", "UNSUBSCRIBE", "UNWATCH", "WAIT", "WATCH",
    "XACK", "XADD", "XAUTOCLAIM", "XCLAIM", "XDEL", "XGROUP", "XINFO", "XLEN", "XPENDING", "XRANGE", "XREAD",
    "XREADGROUP", "XREVRANGE", "XSETID", "XTRIM", "ZADD", "ZCARD", "ZCOUNT", "ZDIFF", "ZDIFFSTORE", "ZINCRBY",
    "ZINTER", "ZINTERCARD", "ZINTERSTORE", "ZLEXCOUNT", "ZMSCORE", "ZPOPMAX", "ZPOPMIN", "ZRANDMEMBER", "ZRANGE",
    "ZRANGEBYLEX", "ZRANGEBYSCORE", "ZRANGESTORE", "ZRANK", "ZREM", "ZREMRANGEBYLEX", "ZREMRANGEBYRANK",
    "ZREMRANGEBYSCORE", "ZREVRANGE", "ZREVRANGEBYLEX", "ZREVRANGEBYSCORE", "ZREVRANK", "ZSCAN", "ZSCORE", "ZUNION",
    "ZUNIONSTORE"]

/-- Why a family of commands is missing, and what to do instead. -/
def familyReason (name : String) : Option String :=
  if name ∈ ["CLUSTER", "READONLY", "READWRITE", "ASKING", "SPUBLISH", "SSUBSCRIBE", "SUNSUBSCRIBE"] then
    some "KivaDB is not a Redis Cluster: one server holds all of a workspace's data, so connect to it as a standalone Redis"
  else if name ∈ ["FUNCTION", "FCALL", "FCALL_RO"] then
    some "KivaDB does not support Redis functions: send the Lua code with EVAL or EVALSHA"
  else if name ∈ ["REPLICAOF", "SLAVEOF", "SYNC", "PSYNC", "REPLCONF", "FAILOVER"] then
    some "KivaDB replicates with its own protocol: use 'replica start' in the KivaDB shell instead"
  else if name ∈ ["MODULE"] then
    some "KivaDB does not load Redis modules: JSON documents and vector search (KIVA.SIMILAR) are built in"
  else none

/-- The arguments are quoted until 128 characters are shown. -/
def quoteArgs (msg : String) : List Bytes → String
  | [] => msg
  | a :: as => if 128 < (asBytes msg).length then msg else quoteArgs (msg ++ s!"'{lossy a}' ") as

/-- The error for a command that is not run. -/
def unknown (args : List Bytes) : Reply :=
  let shown := lossy (args.headD [])
  let msg := quoteArgs s!"unknown command '{shown}', with args beginning with: " args.tail
  match familyReason shown.toUpper with
  | some why => .err (msg ++ s!"({why}.)")
  | none => .err msg

def refuse (name : String) (args : List Bytes) : Option Reply :=
  if name ∈ supported then none else some (unknown args)

variable [External] [Chrono] [Codec] [Vectors]

/-- A client's connection: its session and what the protocol keeps beside it. -/
structure Conn where
  site : Site
  /-- Commands collected between MULTI and EXEC. -/
  queued : Option (List (List Bytes))
  /-- A command was refused while queuing. -/
  aborted : Bool
  /-- The workspace of database 0. Known once SELECT is used. -/
  home : Option String
  resp3 : Bool
  /-- How many channels and patterns this connection listens to. -/
  subs : Int64
  /-- Messages published inside MULTI or a script, sent when it commits. -/
  held : Option (List Held)

/-- Who is asking, and where. -/
structure Who where
  user : Option UserCtx
  ws : String
  wsPriv : Option Priv
  home : Option String
  resp3 : Bool
  subs : Int64

/-- What a command asks of its connection: the operations of the session, what is
read off the engine, and the state of the connection itself. -/
inductive Op
  | check (need : Need)
  | writable
  | kvGet (key : String)
  | kvType (key : String)
  | apply (ops : List BatchOp)
  | range
  | keysMatching (pattern : String)
  | len
  /-- A query over the documents of the engine. -/
  | query (f : Inner → Int64 → Result Bytes)
  | reset
  | now
  | random
  | maxMembers
  | who
  | switchWorkspace (ws : String)
  | ensureWorkspace (ws : String)
  | leave
  | login (name password : String)
  | setHome (home : Option String)
  | publish (channel message : Bytes)
  | listen (subs : Int64)
  | protocol (resp3 : Bool)
  | scripts
  | setScripts (scripts : List (String × String))

@[reducible] def Op.Ans : Op → Type
  | kvGet _ => Option (Value × Meta)
  | kvType _ => Option Ty
  | range | keysMatching _ => List (String × Entry)
  | len | maxMembers => Nat
  | query _ => Bytes
  | now | publish _ _ => Int64
  | random => UInt64
  | who => Who
  | scripts => List (String × String)
  | _ => Unit

/-- A command, or a script. -/
abbrev Cmd := Prog Op (fun op => Except KivaError op.Ans) Reply

namespace Conn

/-- An operation of the session, run for the connection. -/
def lift {α : Type} (m : S α) (c : Conn) : Except KivaError α × Conn :=
  match m c.site with
  | .ok a site => (.ok a, { c with site })
  | .error e site => (.error e, { c with site })

/-- The workspace whose channels this connection uses. -/
def scope (c : Conn) : String :=
  let ws := c.home.getD c.site.sess.ws
  let user := (c.site.sess.user.map UserCtx.name).getD "-"
  if ws = "" then s!"@{user}" else ws

def send (c : Conn) (messages : List Held) : Conn :=
  { c with site := { c.site with server := { c.site.server with sent := c.site.server.sent ++ messages } } }

end Conn

/-- A reading of the engine of the session. -/
def reading {α : Type} (m : Int64 → M α) : S α := do
  let t ← pause
  onEngine (← get).sess.ws (m (t.clock.now 0))

def query (f : Inner → Int64 → Result Bytes) (now : Int64) : M Bytes := do
  let i ← MonadState.get
  attempt (f i now)

def resetEngine : S Unit := do
  let t ← pause
  onEngine (← get).sess.ws (reset t.fileId)

def randomU64 : S UInt64 := do
  match (← pause).random with
  | .ok n => return n
  | .error why => throw (.other why)

/-- What the connection answers a command. -/
def answer : (op : Op) → Conn → Except KivaError op.Ans × Conn
  | .check need, c => (c.site.sess.check need, c)
  | .writable, c => (c.site.writable, c)
  | .kvGet key, c => c.lift (kvGet key)
  | .kvType key, c => c.lift (kvType key)
  | .apply ops, c => c.lift (Front.apply ops)
  | .range, c => c.lift (reading Engine.range)
  | .keysMatching pattern, c => c.lift (reading (Engine.keysMatching pattern))
  | .len, c => c.lift (reading fun _ => Engine.len)
  | .query f, c => c.lift (reading (query f))
  | .reset, c => c.lift resetEngine
  | .now, c => c.lift (do return (← pause).clock.now 0)
  | .random, c => c.lift randomU64
  | .maxMembers, c => (.ok c.site.server.maxMembers, c)
  | .who, c =>
      (.ok ⟨c.site.sess.user, c.site.sess.ws, c.site.sess.wsPriv, c.home, c.resp3, c.subs⟩, c)
  | .switchWorkspace ws, c => c.lift (switchWorkspace ws)
  | .ensureWorkspace ws, c => c.lift (ensureWorkspace ws)
  | .leave, c => c.lift leave
  | .login name password, c => c.lift (login name password)
  | .setHome home, c => (.ok (), { c with home })
  | .publish channel message, c =>
      let m : Held := ⟨c.scope, channel, message⟩
      -- inside MULTI or a script: sent once it commits
      match c.held with
      | some held => (.ok (c.site.server.receivers m), { c with held := some (held ++ [m]) })
      | none => (.ok (c.site.server.receivers m), c.send [m])
  | .listen subs, c => (.ok (), { c with subs })
  | .protocol resp3, c => (.ok (), { c with resp3 })
  | .scripts, c => (.ok c.site.server.scripts, c)
  | .setScripts scripts, c =>
      (.ok (), { c with site := { c.site with server := { c.site.server with scripts } } })

namespace Cmd

/-- Asks for something; a failure ends the command. -/
def ask (op : Op) : Cmd op.Ans := do
  match ← Prog.ask op with
  | .ok a => return a
  | .error e => .fail (.ofError e)

def get (k : String) : Cmd (Option (Value × Meta)) := ask (.kvGet k)

def put (k : String) (v : Value) (expiresAt : Int64) : Cmd Unit := ask (.apply [.put k v expiresAt false])

/-- Deletes `k`; says whether it was there. -/
def del (k : String) : Cmd Bool := do
  match ← ask (.kvType k) with
  | none => return false
  | some _ =>
      ask (.apply [.del k])
      return true

end Cmd

namespace Conn

/-- The command, run for the connection. -/
def perform {α : Type} (c : Conn) (p : Cmd α) : Except Reply α × Conn := p.run answer c

variable {α β : Type} {c c' : Conn}

@[simp] theorem perform_pure (c : Conn) (a : α) : c.perform (pure a) = (.ok a, c) := rfl

@[simp] theorem perform_fail (c : Conn) (r : Reply) : c.perform (.fail r : Cmd α) = (.error r, c) := rfl

@[simp] theorem perform_ofExcept (c : Conn) (r : Except Reply α) : c.perform (Prog.ofExcept r) = (r, c) :=
  Prog.run_ofExcept r c

theorem perform_bind (c : Conn) (p : Cmd α) (f : α → Cmd β) :
    c.perform (p >>= f) = match c.perform p with
      | (.ok a, c') => c'.perform (f a)
      | (.error r, c') => (.error r, c') := by
  simp only [perform, Prog.run_bind]
  rcases p.run answer c with ⟨e | a, c'⟩
  · rfl
  · rfl

theorem perform_asked (c : Conn) (op : Op) :
    c.perform (Cmd.ask op) = match answer op c with
      | (.ok a, c') => (.ok a, c')
      | (.error e, c') => (.error (.ofError e), c') := by
  show (match (answer op c).1 with | .ok a => (pure a : Cmd op.Ans) | .error e => .fail (.ofError e)).run answer
    (answer op c).2 = _
  rcases answer op c with ⟨e | a, c'⟩
  · rfl
  · rfl

theorem perform_ask {op : Op} {a : op.Ans} (h : answer op c = (.ok a, c')) (f : op.Ans → Cmd β) :
    c.perform (Cmd.ask op >>= f) = c'.perform (f a) := by
  rw [perform_bind, perform_asked, h]

theorem perform_ask_error {op : Op} {e : KivaError} (h : answer op c = (.error e, c')) (f : op.Ans → Cmd β) :
    c.perform (Cmd.ask op >>= f) = (.error (.ofError e), c') := by
  rw [perform_bind, perform_asked, h]

end Conn

end KivaDb.Resp
