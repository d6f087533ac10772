import KivaDb.Engine.Ops

namespace KivaDb.Repl

open Lib.LittleEndian Lib.Utf8 Format

/-- The name under which operations on the system database travel. -/
def systemName : String := "@system"

def defaultName : String := "default"

/-- What an engine holds under a key. -/
structure Item where
  ty : Ty
  raw : Bytes
  enc : DocEnc
  timestamp : Int64
  expiresAt : Int64
  deriving DecidableEq

def Item.isExpired (it : Item) (now : Int64) : Bool := 0 < it.expiresAt && it.expiresAt ≤ now

abbrev Store := Std.ExtTreeMap String Item compare

namespace Store

def apply (s : Store) : Op → Store
  | .set key ty raw enc timestamp expiresAt _ => s.insert key ⟨ty, raw, enc, timestamp, expiresAt⟩
  | .del key => s.erase key
  | .reset => ∅

/-- What `get_raw` finds under a key. -/
def liveAt (s : Store) (key : String) (now : Int64) : Option Item := (s[key]?).filter fun it => ¬ it.isExpired now

/-- The keys `range` lists. -/
def range (s : Store) (now : Int64) : List String := (s.toList.filter fun p => !p.2.isExpired now).map Prod.fst

end Store

/-- What the files of each name hold, when there are any. -/
abbrev Disk := String → Option Store

namespace Disk

def store (d : Disk) (name : String) : Store := (d name).getD ∅

def put (d : Disk) (name : String) (s : Store) : Disk := fun n => if n = name then some s else d n

/-- Opening an engine makes its file. -/
def opened (d : Disk) (name : String) : Disk := d.put name (d.store name)

def apply (d : Disk) (name : String) (op : Op) : Disk := d.put name ((d.store name).apply op)

end Disk

def validNamePart (cs : List Char) : Bool :=
  !cs.isEmpty && cs.length ≤ 64 && cs.all fun c => c.isAlphanum || c = '_' || c = '-'

/-- `analytics` or `travel.places`: a workspace, alone or in a project. -/
def validWorkspaceName (name : String) : Bool :=
  let cs := name.toList
  let part := cs.takeWhile (· ≠ '.')
  match cs.drop part.length with
  | [] => validNamePart cs
  | _ :: rest => validNamePart part && validNamePart rest

/-- The workspaces registered besides the default one, and the files. -/
structure Node where
  spaces : List String
  valid : ∀ n ∈ spaces, validWorkspaceName n = true
  disk : Disk

namespace Node

/-- The workspace has a directory. -/
def knows (n : Node) (name : String) : Bool := name = defaultName || n.spaces.contains name

def add (n : Node) (name : String) (h : validWorkspaceName name = true) : Node where
  spaces := n.spaces ++ [name]
  valid := by
    intro m hm
    rcases List.mem_append.mp hm with hm | hm
    · exact n.valid m hm
    · exact List.mem_singleton.mp hm ▸ h
  disk := n.disk

/-- Makes sure a workspace is registered. -/
def ensure (n : Node) (name : String) : Result Node :=
  if n.knows name then .ok n
  else if h : validWorkspaceName name = true then .ok (n.add name h)
  else .error (.invalid "workspace names may only contain letters, digits, '_' and '-', with one '.' after a project name (travel.places)")

/-- Unregisters the workspaces that `keep` does not hold of; their files stay. -/
def keepOnly (n : Node) (keep : String → Bool) : Node where
  spaces := n.spaces.filter keep
  valid := fun m hm => n.valid m (List.mem_filter.mp hm).1
  disk := n.disk

def remove (n : Node) (name : String) : Node := n.keepOnly (· ≠ name)

end Node

inductive Frame
  | snapBegin
  | workspaces (names : List String)
  | use (name : String)
  | wsRemove (name : String)
  | set (seq : Nat) (key : String) (item : Item)
  | del (seq : Nat) (key : String)
  | reset (seq : Nat)
  | snapEnd (seq : Nat)

/-- What is queued for a replica. -/
inductive Msg
  | op (seq : Nat) (name : String) (op : Op)
  | workspace (name : String) (removed : Bool)

/-- How far `serve_replica` is: before it registers the replica; between its
frames; the workspaces it has yet to send, with the keys it has yet to read of
the one it is in; sending what is queued. -/
inductive Phase
  | away
  | begin_
  | listing
  | spaces (rest : List String)
  | entered (name : String) (rest : List String)
  | keys (name : String) (todo rest : List String)
  | live (current : String)

/-- The master. `telling` has the workspaces created or removed of which the
replicas are not yet told. -/
structure Master where
  node : Node
  opened : List String
  seq : Nat
  queue : List Msg
  acked : Nat
  phase : Phase
  telling : List (String × Bool)

/-- The replica, and the name of the engine it applies operations to. -/
structure Replica where
  node : Node
  engine : String

variable [Chrono] [Codec]

/-- Applies a replicated write: the item as the replica stores it. -/
def putRaw (key : String) (it : Item) : Result Item := do
  let value ← Codec.decode it.ty it.raw it.enc
  validateKey key
  let (raw, enc) ← Codec.encodeStored value (it.enc = .msgPack && value.ty.isDoc)
  if maxValueLen < raw.length then .error (.invalid "value is larger than 256 MB")
  else .ok ⟨value.ty, raw, enc, it.timestamp, it.expiresAt⟩

/-- The operation numbered `seq` is applied: acknowledged, unless it comes from
the snapshot. -/
def applied (seq : Nat) : Option Nat := if 0 < seq then some seq else none

/-- What a replica does with a frame, and what it acknowledges. -/
def follow (r : Replica) : Frame → Result (Replica × Option Nat)
  | .snapBegin => .ok ({ r with node := { r.node with disk := r.node.disk.put defaultName ∅ }, engine := defaultName }, none)
  | .workspaces names => do
      let names := names.filter (· ≠ "")
      let node ← names.foldlM Node.ensure r.node
      .ok ({ r with node := node.keepOnly fun n => n = defaultName || names.contains n }, none)
  | .use name =>
      if name = systemName then .ok ({ r with engine := name }, none)
      else do
        let node ← r.node.ensure name
        .ok ({ r with node := { node with disk := node.disk.opened name }, engine := name }, none)
  | .wsRemove name => .ok (if name = defaultName then r else { r with node := r.node.remove name }, none)
  | .set seq key item => do
      -- an older master sends seconds
      let item ← putRaw key { item with expiresAt := expiryToMs item.expiresAt }
      let store := (r.node.disk.store r.engine).insert key item
      .ok ({ r with node := { r.node with disk := r.node.disk.put r.engine store } }, applied seq)
  | .del seq key =>
      let store := (r.node.disk.store r.engine).erase key
      .ok ({ r with node := { r.node with disk := r.node.disk.put r.engine store } }, applied seq)
  | .reset seq => .ok ({ r with node := { r.node with disk := r.node.disk.put r.engine ∅ } }, applied seq)
  | .snapEnd seq => .ok (r, some seq)

omit [Chrono] [Codec] in
/-- The frame of an operation. -/
def Op.frame (seq : Nat) : Op → Frame
  | .set key ty raw enc timestamp expiresAt _ => .set seq key ⟨ty, raw, enc, timestamp, expiresAt⟩
  | .del key => .del seq key
  | .reset => .reset seq

namespace Master

omit [Chrono] [Codec]

/-- A replica is registered: what happens from now on is queued for it. -/
def connected (m : Master) : Bool :=
  match m.phase with
  | .away => false
  | _ => true

def send (m : Master) (msg : Msg) : Master := if m.connected then { m with queue := m.queue ++ [msg] } else m

/-- There is an engine of that name, or it can be opened. -/
def reaches (m : Master) (name : String) : Bool := name = systemName || m.opened.contains name || m.node.knows name

def openEngine (m : Master) (name : String) : Master :=
  { m with
    opened := if m.opened.contains name then m.opened else m.opened ++ [name]
    node := { m.node with disk := m.node.disk.opened name } }

/-- An operation committed on the engine `name`, numbered and queued. -/
def write (m : Master) (name : String) (op : Op) : Option Master :=
  if m.reaches name then
    let m := m.openEngine name
    some (Master.send { m with node := { m.node with disk := m.node.disk.apply name op }, seq := m.seq + 1 }
      (.op (m.seq + 1) name op))
  else none

/-- Sends on what is queued. -/
def forward (m : Master) (current : String) : Option (Master × List Frame) :=
  match m.queue with
  | [] => none
  | .op seq name op :: queue =>
      some ({ m with queue, phase := .live name },
        (if name = current then [] else [.use name]) ++ [Op.frame seq op])
  | .workspace name false :: queue => some ({ m with queue, phase := .live name }, [.use name])
  | .workspace name true :: queue => some ({ m with queue }, [.wsRemove name])

/-- The next thing `serve_replica` does, with the frames it writes. `readable`:
the record of the key it reads can be read. -/
def serve (m : Master) (now : Int64) (readable : Bool) : Option (Master × List Frame) :=
  match m.phase with
  | .away => none
  | .begin_ => some ({ m with phase := .listing }, [.snapBegin])
  | .listing =>
      let names := defaultName :: m.node.spaces
      some ({ m with phase := .spaces (names ++ [systemName]) }, [.workspaces names])
  | .spaces [] => some ({ m with phase := .live systemName }, [.snapEnd m.seq])
  | .spaces (name :: rest) =>
      if m.reaches name then some ({ m.openEngine name with phase := .entered name rest }, [.use name, .reset 0])
      else some ({ m with phase := .spaces rest }, [])
  | .entered name rest => some ({ m with phase := .keys name ((m.node.disk.store name).range now) rest }, [])
  | .keys _ [] rest => some ({ m with phase := .spaces rest }, [])
  | .keys name (key :: todo) rest =>
      let frames := match (m.node.disk.store name).liveAt key now with
        | some item => if readable then [.set 0 key item] else []
        | none => []
      some ({ m with phase := .keys name todo rest }, frames)
  | .live current => m.forward current

end Master

/-- A master and a replica, the frames and the acknowledgements on their way, and
the clock. `log` has the operations in the order of their numbers. -/
structure Link where
  master : Master
  net : List Frame
  replica : Replica
  acks : List Nat
  now : Int64
  log : List (String × Op)

/-- One thing that happens while the workspaces stay the same. -/
inductive Turn
  | tick (t : Int64)
  | write (name : String) (op : Op)
  | connect
  | serve (readable : Bool)
  | follow
  | ack

namespace Link

def step (s : Link) : Turn → Option Link
  | .tick t => if s.now ≤ t then some { s with now := t } else none
  | .write name op => (s.master.write name op).map fun m => { s with master := m, log := s.log ++ [(name, op)] }
  | .connect =>
      match s.master.phase with
      | .away => some { s with master := { s.master with phase := .begin_ } }
      | _ => none
  | .serve readable => (s.master.serve s.now readable).map fun (m, fs) => { s with master := m, net := s.net ++ fs }
  | .follow =>
      match s.net with
      | [] => none
      | f :: net =>
          -- a frame that cannot be applied ends the connection
          match Repl.follow s.replica f with
          | .ok (r, ack) => some { s with replica := r, net, acks := s.acks ++ ack.toList }
          | .error _ => none
  | .ack =>
      match s.acks with
      | [] => none
      | n :: acks => some { s with master := { s.master with acked := max s.master.acked n }, acks }

/-- Both nodes just started, whatever their files hold. -/
structure Start (s : Link) : Prop where
  opened : s.master.opened = [defaultName]
  seq : s.master.seq = 0
  queue : s.master.queue = []
  acked : s.master.acked = 0
  phase : s.master.phase = .away
  telling : s.master.telling = []
  net : s.net = []
  acks : s.acks = []
  log : s.log = []

end Link

end KivaDb.Repl
