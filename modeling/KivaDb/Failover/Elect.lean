import Mathlib.Data.String.Basic
import Mathlib.Data.UInt

namespace KivaDb.Failover

/-- The settings of `[failover]` that decide something; `quorum` 0 stands for a
majority. -/
structure Settings where
  auto : Bool
  quorum : Nat
  priority : UInt64
  deriving DecidableEq

def needed (nodes configured : Nat) : Nat :=
  if 0 < configured then configured else nodes / 2 + 1

def Settings.needed (s : Settings) (nodes : Nat) : Nat := Failover.needed nodes s.quorum

/-- A replica that could become the master. -/
structure Candidate where
  addr : String
  seq : UInt64
  priority : UInt64
  deriving DecidableEq

def Candidate.cmp (a b : Candidate) : Ordering :=
  (compare a.seq b.seq).then ((compare a.priority b.priority).then (compare b.addr a.addr))

/-- The last of the greatest elements, as `Iterator::max_by` has it. -/
def maxBy {α : Type} (cmp : α → α → Ordering) : List α → Option α
  | [] => none
  | a :: as => some (as.foldl (fun m b => if cmp m b = .gt then m else b) a)

def best (candidates : List Candidate) : Option Candidate :=
  maxBy Candidate.cmp (candidates.filter fun c => 0 < c.priority)

def grants (epoch voted requestEpoch : UInt64) (masterDown : Bool) (ownSeq candidateSeq : UInt64) : Bool :=
  requestEpoch > epoch && requestEpoch > voted && masterDown && candidateSeq ≥ ownSeq

/-- `str::parse::<u16>`, zero refused. -/
def parsePort (s : List Char) : Option UInt16 :=
  let digits := if s.head? = some '+' then s.drop 1 else s
  if digits.isEmpty || !digits.all Char.isDigit then none
  else
    let n := digits.foldl (fun n c => 10 * n + (c.toNat - 48)) 0
    if n = 0 ∨ 65535 < n then none else some (UInt16.ofNat n)

def bracket (c : Char) : Bool := c = '[' || c = ']'

def hostPort (addr : String) : Option (String × UInt16) :=
  let back := addr.toList.reverse
  let port := (back.takeWhile (· ≠ ':')).reverse
  match back.dropWhile (· ≠ ':') with
  | [] => none
  | _ :: host =>
      let h := ((host.dropWhile bracket).reverse.dropWhile bracket)
      (parsePort port).map fun p => (String.ofList h, p)

/-- What the threads of a node share: its `Group`, its link to the master, and
the addresses of the replicas connected to it. -/
structure Node where
  epoch : UInt64
  voted : UInt64
  seq : UInt64
  appliedSeq : UInt64
  isReplica : Bool
  running : Bool
  master : String
  advertised : String
  peers : List String
  replicas : List String
  deriving DecidableEq

inductive Request
  | probe
  | vote (epoch : UInt64) (candidate : String) (seq : UInt64)
  | announce (epoch : UInt64) (master : String)
  deriving DecidableEq

inductive Reply
  | probe (isMaster : Bool) (master : String) (masterDown : Bool) (seq epoch priority : UInt64) (auto : Bool)
  | vote (granted : Bool) (epoch : UInt64)
  | announce (epoch : UInt64)
  deriving DecidableEq

namespace Reply

def isMaster : Reply → Bool
  | probe b .. => b
  | _ => false

def epoch : Reply → UInt64
  | probe _ _ _ _ e _ _ => e
  | vote _ e => e
  | announce e => e

def seq : Reply → UInt64
  | probe _ _ _ s .. => s
  | _ => 0

def priority : Reply → UInt64
  | probe _ _ _ _ _ p _ => p
  | _ => 0

/-- The node that answers sees `master` down too, and may replace it. -/
def agrees (master : String) : Reply → Bool
  | probe _ m down _ _ _ auto => down && auto && m = master
  | _ => false

def granted : Reply → Bool
  | vote g _ => g
  | _ => false

end Reply

namespace Node

/-- `elapsed`: nothing was heard for `failover.down_after_ms`. -/
def masterSilent (n : Node) (elapsed : Bool) : Bool := n.isReplica && n.running && elapsed

def setEpoch (n : Node) (epoch : UInt64) : Node := { n with epoch := max n.epoch epoch }

def setVoted (n : Node) (epoch : UInt64) : Node := { n with voted := epoch }

def promote (n : Node) : Node := { n with running := false, isReplica := false }

def startReplica (n : Node) (host : String) (port : UInt16) : Node :=
  { n with isReplica := true, running := true, master := host ++ ":" ++ toString port, appliedSeq := 0 }

def followNewMaster (n : Node) (master : String) (epoch : UInt64) : Node :=
  match hostPort master with
  | none => n
  | some (host, port) =>
      if n.isReplica && n.master = master then n.setEpoch epoch
      else { (n.setEpoch epoch).startReplica host port with replicas := [] }

/-- What a replica takes of its master's heartbeat; a node goes by its address. -/
def learn (n : Node) (epoch : UInt64) (nodes : List String) : Node :=
  { n.setEpoch epoch with peers := nodes.filter fun a => a ≠ n.advertised && a ≠ "" }

def handle (n : Node) (s : Settings) (elapsed : Bool) : Request → Node × Reply
  | .probe =>
      (n, .probe (!n.isReplica) (if n.isReplica then n.master else "") (n.masterSilent elapsed)
        (if n.isReplica then n.appliedSeq else n.seq) n.epoch s.priority s.auto)
  | .vote request _ seq =>
      if s.auto && grants n.epoch n.voted request (n.masterSilent elapsed) n.appliedSeq seq then
        (n.setVoted request, .vote true n.epoch)
      else (n, .vote false n.epoch)
  | .announce epoch master =>
      let n' := if epoch ≥ n.epoch ∧ master ≠ "" then n.followNewMaster master epoch else n
      (n', .announce n'.epoch)

@[simp] theorem setEpoch_voted (n : Node) (e : UInt64) : (n.setEpoch e).voted = n.voted := rfl

@[simp] theorem setVoted_voted (n : Node) (e : UInt64) : (n.setVoted e).voted = e := rfl

@[simp] theorem setVoted_advertised (n : Node) (e : UInt64) : (n.setVoted e).advertised = n.advertised := rfl

@[simp] theorem promote_voted (n : Node) : n.promote.voted = n.voted := rfl

@[simp] theorem promote_advertised (n : Node) : n.promote.advertised = n.advertised := rfl

@[simp] theorem learn_voted (n : Node) (e : UInt64) (nodes : List String) : (n.learn e nodes).voted = n.voted := rfl

theorem followNewMaster_frame (n : Node) (m : String) (e : UInt64) :
    (n.followNewMaster m e).voted = n.voted ∧ (n.followNewMaster m e).advertised = n.advertised := by
  rw [followNewMaster]
  split
  · exact ⟨rfl, rfl⟩
  · split
    · exact ⟨rfl, rfl⟩
    · exact ⟨rfl, rfl⟩

@[simp] theorem followNewMaster_voted (n : Node) (m : String) (e : UInt64) :
    (n.followNewMaster m e).voted = n.voted := (n.followNewMaster_frame m e).1

@[simp] theorem followNewMaster_advertised (n : Node) (m : String) (e : UInt64) :
    (n.followNewMaster m e).advertised = n.advertised := (n.followNewMaster_frame m e).2

end Node

/-- What `elect` has read before it turns to the others. -/
structure View where
  master : String
  me : String
  seq : UInt64
  peers : List String
  needed : Nat
  priority : UInt64
  deriving DecidableEq

/-- Where `elect` stands between two accesses to what its node shares. -/
inductive Elect
  | idle
  /-- The master is being called. -/
  | hailing (s : Settings) (master : String)
  /-- It does not answer: `epoch()` is read next. -/
  | alone (v : View)
  /-- `p` is being called, then `rest`. -/
  | probing (v : View) (agree : List Candidate) (highest : UInt64) (p : String) (rest : List String)
  /-- This node is the best placed: `voted()` is read next. -/
  | standing (v : View) (agree : List Candidate) (highest : UInt64)
  /-- `set_voted(epoch)` is next. -/
  | recording (v : View) (agree : List Candidate) (epoch : UInt64)
  /-- `c` is being asked for its vote, then `rest`. -/
  | asking (v : View) (epoch : UInt64) (votes : Nat) (c : String) (rest : List String)
  /-- `promote()` is next. -/
  | winning (v : View) (epoch : UInt64)
  /-- `set_epoch(epoch)` is next, then the announcement. -/
  | leading (v : View) (epoch : UInt64)
  deriving DecidableEq

namespace Elect

/-- `elect` waits for the answer to its last call. -/
def waiting : Elect → Bool
  | hailing .. => true
  | probing .. => true
  | asking .. => true
  | _ => false

def choose (v : View) (agree : List Candidate) (highest : UInt64) : Elect :=
  if agree.length < v.needed then idle
  else
    match best agree with
    | none => idle
    | some winner => if winner.addr ≠ v.me then idle else standing v agree highest

def probe (v : View) (agree : List Candidate) (highest : UInt64) : List String → Elect × List (String × Request)
  | [] => (choose v agree highest, [])
  | p :: ps => (probing v agree highest p ps, [(p, .probe)])

def ask (v : View) (epoch : UInt64) (votes : Nat) : List String → Elect × List (String × Request)
  | [] => (if votes < v.needed then idle else winning v epoch, [])
  | c :: cs => (asking v epoch votes c cs, [(c, .vote epoch v.me v.seq)])

/-- The failure detector calls `elect`. -/
def start (s : Settings) (elapsed : Bool) (n : Node) : Option (Elect × List (String × Request)) :=
  if s.auto && n.masterSilent elapsed then some (hailing s n.master, [(n.master, .probe)]) else none

/-- `elect` up to its next access or call; `answer` is that of the call it waits
for, `none` when the node could not be reached. -/
def step (answer : Option Reply) (n : Node) : Elect → Node × Elect × List (String × Request)
  | idle => (n, idle, [])
  | hailing s master =>
      if answer.isSome then (n, idle, [])
      else
        let peers := n.peers.filter (· ≠ n.advertised)
        (n, alone ⟨master, n.advertised, n.appliedSeq, peers, s.needed (peers.length + 2), s.priority⟩, [])
  | alone v => (n, probe v [⟨v.me, v.seq, v.priority⟩] n.epoch v.peers)
  | probing v agree highest p rest =>
      match answer with
      | none => (n, probe v agree highest rest)
      | some r =>
          if r.isMaster && r.epoch ≥ n.epoch then (n.followNewMaster p r.epoch, idle, [])
          else
            let agree' := if r.agrees v.master then agree ++ [⟨p, r.seq, r.priority⟩] else agree
            (n, probe v agree' (max highest r.epoch) rest)
  | standing v agree highest => (n, recording v agree (max highest n.voted + 1), [])
  | recording v agree epoch =>
      (n.setVoted epoch, ask v epoch 1 ((agree.filter (·.addr ≠ v.me)).map Candidate.addr))
  | asking v epoch votes _ rest =>
      (n, ask v epoch (if (answer.map Reply.granted).getD false then votes + 1 else votes) rest)
  | winning v epoch => (n.promote, leading v epoch, [])
  | leading v epoch =>
      (n.setEpoch epoch, idle, (v.peers ++ [v.master]).map fun p => (p, .announce epoch v.me))

/-- The vote for itself that the next step records, with its epoch. -/
def ownVote : Elect → Option (UInt64 × String)
  | recording v _ epoch => some (epoch, v.me)
  | _ => none

theorem step_frame (answer : Option Reply) (n : Node) (e : Elect) :
    (e.step answer n).1.voted = (e.ownVote.map Prod.fst).getD n.voted ∧
      (e.step answer n).1.advertised = n.advertised := by
  cases e with
  | recording v agree epoch => exact ⟨rfl, rfl⟩
  | hailing s m =>
      simp only [step]
      split
      · exact ⟨rfl, rfl⟩
      · exact ⟨rfl, rfl⟩
  | probing v agree highest p rest =>
      cases answer with
      | none => exact ⟨rfl, rfl⟩
      | some r =>
          simp only [step]
          split
          · exact Node.followNewMaster_frame _ _ _
          · exact ⟨rfl, rfl⟩
  | idle => exact ⟨rfl, rfl⟩
  | alone v => exact ⟨rfl, rfl⟩
  | standing v agree highest => exact ⟨rfl, rfl⟩
  | asking v epoch votes c rest => exact ⟨rfl, rfl⟩
  | winning v epoch => exact ⟨rfl, rfl⟩
  | leading v epoch => exact ⟨rfl, rfl⟩

end Elect

end KivaDb.Failover
