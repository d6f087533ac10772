import KivaDb.Repl.Acked

namespace KivaDb.Repl

open Lib Format

namespace Master

/-- What the files of a workspace hold once it is created in a folder that holds
`files`: an engine already open stays. -/
def folder (m : Master) (name : String) (files : Option Store) : Option Store :=
  if m.opened.contains name then m.node.disk name else files

def createWorkspace (m : Master) (name : String) (files : Option Store) : Option Master :=
  if m.node.knows name then none
  else if h : validWorkspaceName name = true then
    let node := m.node.add name h
    some { m with
      node := { node with disk := fun n => if n = name then m.folder name files else node.disk n }
      telling := m.telling ++ [(name, false)] }
  else none

def removeWorkspace (m : Master) (name : String) : Option Master :=
  if name ≠ defaultName ∧ name ∈ m.node.spaces then
    some { m with node := m.node.remove name, telling := m.telling ++ [(name, true)] }
  else none

/-- The replica is told of one of the workspaces created or removed. -/
def workspaceChanged (m : Master) (i : Nat) : Option Master :=
  match m.telling[i]? with
  | some (name, removed) => some (Master.send { m with telling := m.telling.eraseIdx i } (.workspace name removed))
  | none => none

end Master

theorem Master.phase_of_not_connected {m : Master} (h : ¬ m.connected = true) : m.phase = .away := by
  rw [Master.connected] at h
  split at h
  · assumption
  · exact absurd rfl h

/-- Whether a message is an operation on the engine `n`. -/
def Msg.isOn (n : String) : Msg → Bool
  | .op _ name _ => name = n
  | .workspace .. => false

/-- A frame changes nothing in the engine `n` of a replica that is in `engine`. -/
def Frame.spares (n engine : String) : Frame → Bool
  | .snapBegin => n ≠ defaultName
  | .set .. | .del .. | .reset .. => n ≠ engine
  | _ => true

/-- None of the frames does. -/
def untouched (n : String) : String → List Frame → Bool
  | _, [] => true
  | engine, f :: fs => f.spares n engine && untouched n (f.enters engine) fs

/-- The workspaces listed by the snapshot that it has not yet entered, once they
are listed. -/
def Phase.left : Phase → Option (List String)
  | .spaces rest | .entered _ rest | .keys _ _ rest => some rest
  | .live _ => some []
  | .away | .begin_ | .listing => none

/-- A master and a replica, and the engines whose contents the stream has. -/
structure Flow where
  link : Link
  carried : List String

inductive Event
  | turn (t : Turn)
  | create (name : String) (files : Option Store)
  | remove (name : String)
  | tell (i : Nat)

namespace Link

/-- The engine whose contents the snapshot turns to. -/
def turnsTo (s : Link) : Turn → List String
  | .serve _ =>
      match s.master.phase with
      | .spaces (name :: _) => if s.master.reaches name then [name] else []
      | _ => []
  | _ => []

/-- A workspace created now has all its contents in the stream. -/
def follows (s : Link) (name : String) : List String :=
  match s.master.phase.left with
  | some rest => if name ∈ rest then [] else [name]
  | none => []

end Link

section

variable [Chrono] [Codec]

def Flow.step (f : Flow) : Event → Option Flow
  | .turn t => (f.link.step t).map fun s => ⟨s, f.carried ++ f.link.turnsTo t⟩
  | .create name files =>
      (f.link.master.createWorkspace name files).map fun m =>
        ⟨{ f.link with master := m }, f.carried ++ f.link.follows name⟩
  | .remove name => (f.link.master.removeWorkspace name).map fun m => { f with link := { f.link with master := m } }
  | .tell i => (f.link.master.workspaceChanged i).map fun m => { f with link := { f.link with master := m } }

end

instance decidableSettles (t ex : Int64) : Decidable (Settles t ex) := inferInstanceAs (Decidable (_ ∨ _))

/-- The deadline of the operation says the same to master and replica. -/
def Op.settles (now : Int64) : Op → Bool
  | .set _ _ _ _ _ expiresAt _ => Settles now expiresAt
  | .del _ | .reset => true

namespace Link

/-- No change of that workspace is on its way from the configuration to the
queue. -/
def told (s : Link) (name : String) : Bool := !(s.master.telling.map Prod.fst).contains name

/-- Neither node holds a key under that name, and nothing about it is on its way. -/
def unused (s : Link) (name : String) (files : Option Store) : Bool :=
  ((s.master.folder name files).getD ∅).isEmpty && (s.replica.node.disk.store name).isEmpty &&
    !s.master.queue.any (Msg.isOn name) && untouched name s.replica.engine s.net

/-- What the snapshot reads can be read, and has a deadline that the replica
reads as it is. -/
def readsWell (s : Link) (readable : Bool) : Bool :=
  match s.master.phase with
  | .keys name (key :: _) _ =>
      ((s.master.node.disk.store name).liveAt key s.now).all fun it => readable && expiryToMs it.expiresAt = it.expiresAt
  | _ => true

end Link

/-- While a replica follows: an operation is on an engine that is registered, and
its deadline settles; what the snapshot reads is read well; of one workspace, no
two changes wait to be told; and the contents of a workspace created are in the
stream: it is not yet listed, or still to be read, or was read and is still
open, or is new on both nodes. -/
def Flow.Clean (f : Flow) : Event → Bool
  | .turn (.write name op) =>
      !f.link.master.connected || ((name = systemName || f.link.master.node.knows name) && Op.settles f.link.now op)
  | .turn (.serve readable) => f.link.readsWell readable
  | .turn _ => true
  | .create name files =>
      f.link.told name &&
        match f.link.master.phase.left with
        | none => true
        | some rest =>
            name ∈ rest || (f.link.master.opened.contains name && f.carried.contains name) || f.link.unused name files
  | .remove name => f.link.told name
  | .tell _ => true

namespace Node

theorem knows_add (n : Node) (name m : String) (h : validWorkspaceName name = true) :
    (n.add name h).knows m = (n.knows m || m = name) := by
  simp [knows, add, Bool.or_assoc, List.contains_eq_mem, List.mem_append, Bool.decide_or]

theorem knows_remove (n : Node) (name m : String) (hd : m ≠ defaultName) :
    (n.remove name).knows m = (n.knows m && m ≠ name) := by
  simp [knows, remove, keepOnly, hd, List.contains_eq_mem, List.mem_filter, Bool.decide_and]

theorem knows_default (n : Node) : n.knows defaultName = true := by simp [knows]

/-- No workspace is named as the system database. -/
theorem knows_system (n : Node) : n.knows systemName = false := by
  have hinvalid : ¬ validWorkspaceName systemName = true := by decide
  have hnot : systemName ∉ n.spaces := fun h => hinvalid (n.valid _ h)
  simp [knows, List.contains_eq_mem, hnot, show systemName ≠ defaultName by decide]

theorem ne_empty_of_knows {n : Node} {name : String} (h : n.knows name = true) : name ≠ "" := by
  rintro rfl
  simp only [knows, Bool.or_eq_true, decide_eq_true_eq, List.contains_iff_mem] at h
  rcases h with h | h
  · exact absurd h (by decide)
  · exact absurd (n.valid _ h) (by decide)

theorem knows_ensure {n n' : Node} {name : String} (h : n.ensure name = .ok n') (m : String) :
    n'.knows m = (n.knows m || m = name) := by
  rw [ensure] at h
  split at h
  · rename_i hk
    cases h
    by_cases hm : m = name
    · rw [hm, hk]
      rfl
    · simp [hm]
  · split at h
    · rename_i hv
      cases h
      exact knows_add n name m hv
    · cases h

theorem knows_ensureAll {names : List String} {n n' : Node} (h : names.foldlM ensure n = .ok n') (m : String) :
    n'.knows m = (n.knows m || names.contains m) := by
  induction names generalizing n with
  | nil =>
      cases h
      simp
  | cons name names ih =>
      rw [List.foldlM_cons] at h
      obtain ⟨q, he, hq⟩ := Fallible.except_bind_ok.mp h
      rw [ih hq, knows_ensure he, List.contains_cons, Bool.or_assoc]
      rfl

end Node

/-- Whether the replica knows the workspace `n` after a frame, `old` before it. -/
def Frame.registers (f : Frame) (n : String) (old : Bool) : Bool :=
  match f with
  | .workspaces names => n = defaultName || (names.filter (· ≠ "")).contains n
  | .use name => if name = systemName then old else old || n = name
  | .wsRemove name => if name = defaultName then old else old && n ≠ name
  | _ => old

/-- Whether a message leaves the workspace `n` registered. -/
def Msg.tells (n : String) (old : Bool) : Msg → Bool
  | .workspace name removed => if name = n then !removed else old
  | .op .. => old

/-- What a queue leaves of it. -/
def tells (n : String) (queue : List Msg) (old : Bool) : Bool := queue.foldl (Msg.tells n) old

@[simp] theorem tells_cons (n : String) (msg : Msg) (queue : List Msg) (old : Bool) :
    tells n (msg :: queue) old = tells n queue (msg.tells n old) := rfl

@[simp] theorem tells_snoc (n : String) (msg : Msg) (queue : List Msg) (old : Bool) :
    tells n (queue ++ [msg]) old = msg.tells n (tells n queue old) := List.foldl_concat ..

section

variable [Chrono] [Codec]

theorem knows_follow {r r' : Replica} {f : Frame} {a : Option Nat} (h : follow r f = .ok (r', a)) {n : String}
    (hn : n ≠ defaultName) : r'.node.knows n = f.registers n (r.node.knows n) := by
  cases f with
  | workspaces names =>
      simp only [follow] at h
      obtain ⟨m, he, hm⟩ := Fallible.except_bind_ok.mp h
      cases hm
      have hall := Node.knows_ensureAll he n
      simp only [Node.knows, hn, decide_false, Bool.false_or] at hall
      simp only [Frame.registers, Node.knows, Node.keepOnly, hn, decide_false, Bool.false_or, List.contains_eq_mem,
        List.mem_filter, Bool.decide_and, Bool.decide_eq_true] at hall ⊢
      rw [hall]
      generalize decide (n ∈ r.node.spaces) = a
      generalize decide (n ∈ names) = b
      generalize decide (n ≠ "") = c
      revert a b c
      decide
  | use name =>
      simp only [follow] at h
      split at h
      · rename_i hs
        cases h
        simp [Frame.registers, hs]
      · rename_i hs
        obtain ⟨m, he, hm⟩ := Fallible.except_bind_ok.mp h
        cases hm
        simp only [Frame.registers, if_neg hs]
        exact Node.knows_ensure he n
  | wsRemove name =>
      cases h
      simp only [Frame.registers]
      split
      · rfl
      · exact Node.knows_remove _ _ _ hn
  | set seq key it =>
      simp only [follow] at h
      obtain ⟨it', -, hm⟩ := Fallible.except_bind_ok.mp h
      cases hm
      rfl
  | snapBegin | del | reset | snapEnd =>
      cases h
      rfl

namespace Link

/-- The workspaces of which all is told. -/
def plain (s : Link) (n : String) : Prop := n ≠ defaultName ∧ n ≠ systemName ∧ s.told n = true

omit [Chrono] [Codec] in
theorem plain_iff {s : Link} {n : String} :
    s.plain n ↔ n ≠ defaultName ∧ n ≠ systemName ∧ n ∉ s.master.telling.map Prod.fst := by
  simp [plain, told, List.contains_eq_mem]

/-- How what is queued will leave the workspaces registered. -/
structure Registers (s : Link) : Prop where
  telling : ∀ p ∈ s.master.telling, s.master.node.knows p.1 = !p.2
  once : (s.master.telling.map Prod.fst).Nodup
  away : s.master.phase = .away → s.master.queue = [] ∧ s.net = []
  same : s.master.phase.left = none → ∀ n, s.plain n →
    tells n s.master.queue (s.master.node.knows n) = s.master.node.knows n
  used : ∀ q seq n op q', s.master.queue = q ++ .op seq n op :: q' → s.plain n → tells n q' true = s.master.node.knows n
  listed : ∀ rest, s.master.phase.left = some rest → ∀ n ∈ rest, s.plain n →
    tells n s.master.queue true = s.master.node.knows n
  shown : ∀ rest, s.master.phase.left = some rest → ∀ r, arrives s.replica s.net = some r → ∀ n, s.plain n →
    tells n s.master.queue (r.node.knows n) = s.master.node.knows n

variable {s s' : Link}

/-- What stays when only the clock, the acknowledgements and what is held move. -/
theorem Registers.unmoved (h : s.Registers) (hknows : s'.master.node.spaces = s.master.node.spaces)
    (htelling : s'.master.telling = s.master.telling) (hqueue : s'.master.queue = s.master.queue)
    (hphase : s'.master.phase = s.master.phase)
    (hnet : s.net = [] → s'.net = [])
    (harr : ∀ r, arrives s'.replica s'.net = some r → arrives s.replica s.net = some r) : s'.Registers := by
  have hk : ∀ n, s'.master.node.knows n = s.master.node.knows n := by
    intro n
    rw [Node.knows, Node.knows, hknows]
  have hplain : ∀ n, s'.plain n → s.plain n := by
    intro n hn
    rw [plain_iff] at hn ⊢
    rw [← htelling]
    exact hn
  refine ⟨fun p hp => ?_, htelling ▸ h.once, fun hp => ?_, fun hl n hn => ?_, fun q seq n op q' hq hn => ?_,
    fun rest hr n hmem hn => ?_, fun rest hr r hr' n hn => ?_⟩
  · rw [hk]
    exact h.telling p (htelling ▸ hp)
  · obtain ⟨hq, hn⟩ := h.away (hphase ▸ hp)
    exact ⟨hqueue.trans hq, hnet hn⟩
  · rw [hk, hqueue]
    exact h.same (hphase ▸ hl) n (hplain n hn)
  · rw [hk]
    exact h.used q seq n op q' (hqueue ▸ hq) (hplain n hn)
  · rw [hk, hqueue]
    exact h.listed rest (hphase ▸ hr) n hmem (hplain n hn)
  · rw [hk, hqueue]
    exact h.shown rest (hphase ▸ hr) r (harr r hr') n (hplain n hn)

theorem Registers.follow (h : s.Registers) (hs : s.step .follow = some s') : s'.Registers := by
  simp only [step] at hs
  split at hs
  · cases hs
  · rename_i f net hnet
    split at hs
    · rename_i r a hf
      cases hs
      refine h.unmoved rfl rfl rfl rfl (fun hnil => ?_) (fun q hq => ?_)
      · rw [hnet] at hnil
        cases hnil
      · rw [hnet, arrives_cons hf]
        exact hq
    · cases hs

theorem Registers.write (h : s.Registers) {name : String} {op : Op}
    (hc : s.master.connected = true → name = systemName ∨ s.master.node.knows name = true)
    (hs : s.step (.write name op) = some s') : s'.Registers := by
  simp only [step, Option.map_eq_some_iff] at hs
  obtain ⟨m', hm, rfl⟩ := hs
  have hw := Master.write_some hm
  cases hconn : s.master.connected with
  | false =>
      exact h.unmoved hw.spaces hw.telling (by rw [hw.queue, hconn]; rfl) hw.phase id fun r hr => hr
  | true =>
      have hk : ∀ n, m'.node.knows n = s.master.node.knows n := by
        intro n
        rw [Node.knows, Node.knows, hw.spaces]
      have hplain : ∀ n, plain { s with master := m', log := s.log ++ [(name, op)] } n → s.plain n := by
        intro n hn
        rw [plain_iff] at hn ⊢
        rw [← hw.telling]
        exact hn
      have hqueue : m'.queue = s.master.queue ++ [.op (s.master.seq + 1) name op] := by rw [hw.queue, if_pos hconn]
      refine ⟨fun p hp => ?_, hw.telling ▸ h.once, fun hp => ?_, fun hl n hn => ?_, fun q seq n o q' hq hn => ?_,
        fun rest hr n hmem hn => ?_, fun rest hr r hr' n hn => ?_⟩
      · rw [hk]
        exact h.telling p (hw.telling ▸ hp)
      · rw [hw.phase] at hp
        simp [Master.connected, hp] at hconn
      · rw [hk, hqueue, tells_snoc]
        exact h.same (hw.phase ▸ hl) n (hplain n hn)
      · rw [hk]
        rcases List.eq_nil_or_concat q' with rfl | ⟨q'', msg, rfl⟩
        · have hlast := hqueue.symm.trans hq
          obtain ⟨-, heq⟩ := List.append_inj' hlast rfl
          obtain ⟨-, rfl, -⟩ : s.master.seq + 1 = seq ∧ name = n ∧ op = o := by simpa using heq
          rcases hc hconn with rfl | hknown
          · exact absurd rfl hn.2.1
          · exact hknown.symm
        · have hlast := hqueue.symm.trans hq
          rw [List.concat_eq_append, ← List.cons_append, ← List.append_assoc] at hlast
          obtain ⟨hinit, heq⟩ := List.append_inj' hlast rfl
          obtain rfl := (List.cons.inj heq).1
          rw [List.concat_eq_append, tells_snoc]
          exact h.used q seq n o q'' hinit (hplain n hn)
      · rw [hk, hqueue, tells_snoc]
        exact h.listed rest (hw.phase ▸ hr) n hmem (hplain n hn)
      · rw [hk, hqueue, tells_snoc]
        exact h.shown rest (hw.phase ▸ hr) r hr' n (hplain n hn)

/-- The snapshot goes on, with frames that register nothing but what is listed. -/
theorem Registers.goesOn (h : s.Registers) {m : Master} {fs : List Frame} {rest rest' : List String}
    (hspaces : m.node.spaces = s.master.node.spaces) (htelling : m.telling = s.master.telling)
    (hqueue : m.queue = s.master.queue) (hleft : s.master.phase.left = some rest) (hleft' : m.phase.left = some rest')
    (hsub : ∀ n ∈ rest', n ∈ rest)
    (hfs : ∀ r r', arrives r fs = some r' → ∀ n, n ≠ defaultName →
      r'.node.knows n = r.node.knows n ∨ r'.node.knows n = true ∧ n ∈ rest) :
    Registers { s with master := m, net := s.net ++ fs } := by
  have hk : ∀ n, m.node.knows n = s.master.node.knows n := by
    intro n
    rw [Node.knows, Node.knows, hspaces]
  have hplain : ∀ n, plain { s with master := m, net := s.net ++ fs } n → s.plain n := by
    intro n hn
    rw [plain_iff] at hn ⊢
    rw [← htelling]
    exact hn
  refine ⟨fun p hp => ?_, htelling ▸ h.once, fun hp => ?_, fun hl => ?_, fun q seq n o q' hq hn => ?_,
    fun list hr n hmem hn => ?_, fun list hr r hr' n hn => ?_⟩
  · rw [hk]
    exact h.telling p (htelling ▸ hp)
  · have hnone : m.phase.left = none := by
      rw [show m.phase = .away from hp]
      rfl
    rw [hnone] at hleft'
    cases hleft'
  · rw [hleft'] at hl
    cases hl
  · rw [hk]
    exact h.used q seq n o q' (hqueue ▸ hq) (hplain n hn)
  · obtain rfl : rest' = list := Option.some.inj (hleft'.symm.trans hr)
    rw [hk, hqueue]
    exact h.listed rest hleft n (hsub n hmem) (hplain n hn)
  · obtain ⟨q, hq, hgot⟩ := arrives_append.mp hr'
    rw [hk, hqueue]
    rcases hfs q r hgot n hn.1 with heq | ⟨heq, hmem⟩
    · rw [heq]
      exact h.shown rest hleft q hq n (hplain n hn)
    · rw [heq]
      exact h.listed rest hleft n hmem (hplain n hn)

/-- The workspaces are listed: the replica knows those of the master. -/
theorem Registers.listing (h : s.Registers) (hp : s.master.phase = .listing) :
    Registers { s with
      master := { s.master with phase := .spaces (defaultName :: s.master.node.spaces ++ [systemName]) }
      net := s.net ++ [.workspaces (defaultName :: s.master.node.spaces)] } := by
  have hnone : s.master.phase.left = none := by
    rw [hp]
    rfl
  refine ⟨h.telling, h.once, fun hp' => by simp at hp', fun hl => by simp [Phase.left] at hl, h.used,
    fun list hr n hmem hn => ?_, fun list hr r hr' n hn => ?_⟩
  · obtain rfl := Option.some.inj hr
    have hsame := h.same hnone n hn
    have hknown : s.master.node.knows n = true := by
      simpa [hn.1, hn.2.1, Node.knows, List.contains_eq_mem] using hmem
    rw [hknown] at hsame
    exact hsame.trans hknown.symm
  · obtain ⟨q, -, hgot⟩ := arrives_append.mp hr'
    obtain ⟨a, ha⟩ := arrives_one.mp hgot
    have hknows : r.node.knows n = s.master.node.knows n := by
      rw [knows_follow ha hn.1]
      cases hm : s.master.node.knows n with
      | true =>
          have hne := Node.ne_empty_of_knows hm
          simp only [Node.knows, hn.1, decide_false, Bool.false_or, List.contains_iff_mem] at hm
          simp [Frame.registers, hne, hm]
      | false =>
          simp only [Node.knows, hn.1, decide_false, Bool.false_or, List.contains_eq_mem, decide_eq_false_iff_not] at hm
          simp [Frame.registers, hn.1, hm]
    rw [hknows]
    exact h.same hnone n hn

/-- What is queued is sent on. -/
theorem Registers.forward (h : s.Registers) {current : String} (hp : s.master.phase = .live current) {m : Master}
    {fs : List Frame} (hm : s.master.forward current = some (m, fs)) :
    Registers { s with master := m, net := s.net ++ fs } := by
  cases hq : s.master.queue with
  | nil => simp [Master.forward, hq] at hm
  | cons msg queue =>
      have hsplit : ∀ q seq n op q', queue = q ++ Msg.op seq n op :: q' → s.plain n →
          tells n q' true = s.master.node.knows n := by
        intro q seq n op q' hsplit hn
        refine h.used (msg :: q) seq n op q' ?_ hn
        rw [hq, hsplit]
        rfl
      have hshown : ∀ r, arrives s.replica s.net = some r → ∀ n, s.plain n →
          tells n queue (msg.tells n (r.node.knows n)) = s.master.node.knows n := by
        intro r hr n hn
        have := h.shown [] (by rw [hp]; rfl) r hr n hn
        rwa [hq] at this
      have hnext : ∀ m fs, m.node = s.master.node → m.telling = s.master.telling → m.queue = queue →
          m.phase.left = some [] → (∀ r r', arrives r fs = some r' → ∀ n, s.plain n →
            r'.node.knows n = msg.tells n (r.node.knows n) ∨
              r'.node.knows n = true ∧ tells n queue true = s.master.node.knows n) →
          Registers { s with master := m, net := s.net ++ fs } := by
        intro m fs hnode htelling hqueue hleft hfs
        have hplain : ∀ n, plain { s with master := m, net := s.net ++ fs } n → s.plain n := by
          intro n hn
          rw [plain_iff] at hn ⊢
          rw [← htelling]
          exact hn
        refine ⟨fun p hp' => ?_, htelling ▸ h.once, fun hp' => ?_, fun hl => ?_, fun q seq n o q' hq' hn => ?_,
          fun list hr n hmem hn => ?_, fun list hr r hr' n hn => ?_⟩
        · rw [hnode]
          exact h.telling p (htelling ▸ hp')
        · rw [show m.phase = .away from hp'] at hleft
          cases hleft
        · rw [hleft] at hl
          cases hl
        · rw [hnode]
          exact hsplit q seq n o q' (hqueue.symm.trans hq') (hplain n hn)
        · obtain rfl : [] = list := Option.some.inj (hleft.symm.trans hr)
          cases hmem
        · obtain ⟨q, hq', hgot⟩ := arrives_append.mp hr'
          rw [hnode, hqueue]
          rcases hfs q r hgot n (hplain n hn) with heq | ⟨heq, htells⟩
          · rw [heq]
            exact hshown q hq' n (hplain n hn)
          · rw [heq]
            exact htells
      cases msg with
      | op seq name o =>
          simp only [Master.forward, hq, Option.some.injEq, Prod.mk.injEq] at hm
          obtain ⟨rfl, rfl⟩ := hm
          refine hnext _ _ rfl rfl rfl rfl fun r r' hr n hn => ?_
          obtain ⟨q, hu, hf⟩ := arrives_append.mp hr
          obtain ⟨b, hb⟩ := arrives_one.mp hf
          have hlast : r'.node.knows n = q.node.knows n := by
            rw [knows_follow hb hn.1]
            cases o <;> rfl
          rw [hlast]
          split at hu
          · obtain rfl := arrives_nil hu
            exact .inl rfl
          · obtain ⟨a, ha⟩ := arrives_one.mp hu
            have hfirst := knows_follow ha hn.1
            by_cases hname : n = name
            · subst hname
              right
              refine ⟨?_, h.used [] seq n o queue hq hn⟩
              rw [hfirst]
              simp [Frame.registers, hn.2.1]
            · left
              rw [hfirst]
              simp [Frame.registers, hname, Msg.tells]
      | workspace name removed =>
          cases removed with
          | false =>
              simp only [Master.forward, hq, Option.some.injEq, Prod.mk.injEq] at hm
              obtain ⟨rfl, rfl⟩ := hm
              refine hnext _ _ rfl rfl rfl rfl fun r r' hr n hn => .inl ?_
              obtain ⟨a, ha⟩ := arrives_one.mp hr
              rw [knows_follow ha hn.1]
              by_cases hname : name = n
              · subst hname
                simp [Frame.registers, Msg.tells, hn.2.1]
              · simp [Frame.registers, Msg.tells, hname, Ne.symm hname]
          | true =>
              simp only [Master.forward, hq, Option.some.injEq, Prod.mk.injEq] at hm
              obtain ⟨rfl, rfl⟩ := hm
              refine hnext _ _ rfl rfl rfl (by rw [hp]; rfl) fun r r' hr n hn => .inl ?_
              obtain ⟨a, ha⟩ := arrives_one.mp hr
              rw [knows_follow ha hn.1]
              by_cases hname : name = n
              · subst hname
                simp [Frame.registers, Msg.tells, hn.1]
              · simp [Frame.registers, Msg.tells, hname, Ne.symm hname]

theorem Registers.serve (h : s.Registers) {readable : Bool} (hs : s.step (.serve readable) = some s') :
    s'.Registers := by
  simp only [step, Option.map_eq_some_iff] at hs
  obtain ⟨⟨m, fs⟩, hm, rfl⟩ := hs
  have hstill : ∀ rest : List String, ∀ r r', arrives r [] = some r' → ∀ n, n ≠ defaultName →
      r'.node.knows n = r.node.knows n ∨ r'.node.knows n = true ∧ n ∈ rest := by
    intro rest r r' hr n _
    obtain rfl := arrives_nil hr
    exact .inl rfl
  cases hp : s.master.phase with
  | away => simp [Master.serve, hp] at hm
  | begin_ =>
      simp only [Master.serve, hp, Option.some.injEq, Prod.mk.injEq] at hm
      obtain ⟨rfl, rfl⟩ := hm
      refine ⟨h.telling, h.once, fun hp' => by simp at hp', fun _ => h.same (by rw [hp]; rfl), h.used,
        fun rest hr => by simp [Phase.left] at hr, fun rest hr => by simp [Phase.left] at hr⟩
  | listing =>
      simp only [Master.serve, hp, Option.some.injEq, Prod.mk.injEq] at hm
      obtain ⟨rfl, rfl⟩ := hm
      exact h.listing hp
  | spaces rest =>
      cases rest with
      | nil =>
          simp only [Master.serve, hp, Option.some.injEq, Prod.mk.injEq] at hm
          obtain ⟨rfl, rfl⟩ := hm
          refine h.goesOn rfl rfl rfl (by rw [hp]; rfl) rfl (fun n hn => hn) ?_
          intro r r' hr n hn
          obtain ⟨a, ha⟩ := arrives_one.mp hr
          exact .inl (knows_follow ha hn)
      | cons name rest =>
          simp only [Master.serve, hp] at hm
          split at hm
          · simp only [Option.some.injEq, Prod.mk.injEq] at hm
            obtain ⟨rfl, rfl⟩ := hm
            refine h.goesOn rfl rfl rfl (by rw [hp]; rfl) rfl
              (fun n hn => List.mem_cons_of_mem _ hn) ?_
            intro r r' hr n hn
            have hcons : [Frame.use name, Frame.reset 0] = [Frame.use name] ++ [Frame.reset 0] := rfl
            rw [hcons] at hr
            obtain ⟨q, hq, hr⟩ := arrives_append.mp hr
            obtain ⟨a, ha⟩ := arrives_one.mp hq
            obtain ⟨b, hb⟩ := arrives_one.mp hr
            have hlast : r'.node.knows n = q.node.knows n := knows_follow hb hn
            rw [hlast, knows_follow ha hn]
            by_cases hname : n = name
            · subst hname
              by_cases hsys : n = systemName
              · exact .inl (by simp [Frame.registers, hsys])
              · exact .inr ⟨by simp [Frame.registers, hsys], List.mem_cons_self⟩
            · exact .inl (by simp [Frame.registers, hname])
          · simp only [Option.some.injEq, Prod.mk.injEq] at hm
            obtain ⟨rfl, rfl⟩ := hm
            exact h.goesOn rfl rfl rfl (by rw [hp]; rfl) rfl (fun n hn => List.mem_cons_of_mem _ hn)
              (hstill _)
  | entered name rest =>
      simp only [Master.serve, hp, Option.some.injEq, Prod.mk.injEq] at hm
      obtain ⟨rfl, rfl⟩ := hm
      exact h.goesOn rfl rfl rfl (by rw [hp]; rfl) rfl (fun n hn => hn) (hstill _)
  | keys name todo rest =>
      cases todo with
      | nil =>
          simp only [Master.serve, hp, Option.some.injEq, Prod.mk.injEq] at hm
          obtain ⟨rfl, rfl⟩ := hm
          exact h.goesOn rfl rfl rfl (by rw [hp]; rfl) rfl (fun n hn => hn) (hstill _)
      | cons key todo =>
          simp only [Master.serve, hp, Option.some.injEq, Prod.mk.injEq] at hm
          obtain ⟨rfl, rfl⟩ := hm
          refine h.goesOn rfl rfl rfl (by rw [hp]; rfl) rfl (fun n hn => hn) ?_
          intro r r' hr n hn
          split at hr
          · split at hr
            · obtain ⟨a, ha⟩ := arrives_one.mp hr
              exact .inl (knows_follow ha hn)
            · exact hstill _ r r' hr n hn
          · exact hstill _ r r' hr n hn
  | live current =>
      simp only [Master.serve, hp] at hm
      exact h.forward hp hm

theorem Registers.turn (h : s.Registers) {t : Turn} (hs : s.step t = some s')
    (hc : ∀ name op, t = .write name op → s.master.connected = true → name = systemName ∨ s.master.node.knows name = true) :
    s'.Registers := by
  cases t with
  | tick t =>
      simp only [step] at hs
      split at hs
      · cases hs
        exact h.unmoved rfl rfl rfl rfl id fun r hr => hr
      · cases hs
  | write name op => exact h.write (hc name op rfl) hs
  | connect =>
      simp only [step] at hs
      split at hs
      · rename_i hp
        cases hs
        refine ⟨h.telling, h.once, fun hp' => by simp at hp', fun _ => h.same (by rw [hp]; rfl), h.used,
          fun rest hr => by simp [Phase.left] at hr, fun rest hr => by simp [Phase.left] at hr⟩
      · cases hs
  | serve readable => exact h.serve hs
  | follow => exact h.follow hs
  | ack =>
      simp only [step] at hs
      split at hs
      · cases hs
      · cases hs
        exact h.unmoved rfl rfl rfl rfl id fun r hr => hr

/-- A workspace is created or removed: it is the one of which a change is to be
told. -/
theorem Registers.changes (h : s.Registers) {m : Master} {name : String} {removed : Bool} (ht : s.told name = true)
    (htelling : m.telling = s.master.telling ++ [(name, removed)]) (hname : m.node.knows name = !removed)
    (hothers : ∀ n, n ≠ defaultName → n ≠ name → m.node.knows n = s.master.node.knows n)
    (hdefault : name ≠ defaultName) (hqueue : m.queue = s.master.queue) (hphase : m.phase = s.master.phase) :
    Registers { s with master := m } := by
  simp only [told, List.contains_eq_mem, Bool.not_eq_true', decide_eq_false_iff_not] at ht
  have hmap : m.telling.map Prod.fst = s.master.telling.map Prod.fst ++ [name] := by simp [htelling]
  have hplain : ∀ n, plain { s with master := m } n → s.plain n ∧ m.node.knows n = s.master.node.knows n := by
    intro n hn
    rw [plain_iff] at hn
    simp only [hmap, List.mem_append, List.mem_singleton, not_or] at hn
    exact ⟨plain_iff.mpr ⟨hn.1, hn.2.1, hn.2.2.1⟩, hothers n hn.1 hn.2.2.2⟩
  refine ⟨fun p hp => ?_, ?_, fun hp => ?_, fun hl n hn => ?_, fun q seq n o q' hq hn => ?_,
    fun rest hr n hmem hn => ?_, fun rest hr r hr' n hn => ?_⟩
  · rw [htelling] at hp
    rcases List.mem_append.mp hp with hp | hp
    · have hne : p.1 ≠ name := by
        intro heq
        exact ht (List.mem_map.mpr ⟨p, hp, heq⟩)
      by_cases hd : p.1 = defaultName
      · rw [← h.telling p hp, hd, Node.knows_default, Node.knows_default]
      · rw [hothers p.1 hd hne]
        exact h.telling p hp
    · obtain rfl := List.mem_singleton.mp hp
      exact hname
  · rw [hmap, List.nodup_append]
    exact ⟨h.once, by simp, fun a ha b hb => by
      obtain rfl := List.mem_singleton.mp hb
      rintro rfl
      exact ht ha⟩
  · rw [hqueue]
    exact h.away (hphase ▸ hp)
  · obtain ⟨hpl, hk⟩ := hplain n hn
    rw [hk, hqueue]
    exact h.same (hphase ▸ hl) n hpl
  · obtain ⟨hpl, hk⟩ := hplain n hn
    rw [hk]
    exact h.used q seq n o q' (hqueue ▸ hq) hpl
  · obtain ⟨hpl, hk⟩ := hplain n hn
    rw [hk, hqueue]
    exact h.listed rest (hphase ▸ hr) n hmem hpl
  · obtain ⟨hpl, hk⟩ := hplain n hn
    rw [hk, hqueue]
    exact h.shown rest (hphase ▸ hr) r hr' n hpl

/-- The replica will be told. -/
theorem Registers.tell (h : s.Registers) {m : Master} {i : Nat} (hm : s.master.workspaceChanged i = some m) :
    Registers { s with master := m } := by
  rw [Master.workspaceChanged] at hm
  split at hm
  · rename_i name removed hi
    obtain rfl := Option.some.inj hm
    have hmem : (name, removed) ∈ s.master.telling := List.mem_of_getElem? hi
    have hknows := h.telling _ hmem
    have honce : ((s.master.telling.eraseIdx i).map Prod.fst).Nodup := h.once.sublist ((List.eraseIdx_sublist _ _).map _)
    have hothers : ∀ n, n ∉ (s.master.telling.eraseIdx i).map Prod.fst → n ≠ name → n ∉ s.master.telling.map Prod.fst := by
      intro n hn hne hin
      obtain ⟨p, hp, rfl⟩ := List.mem_map.mp hin
      obtain ⟨j, hj⟩ := List.getElem?_of_mem hp
      refine hn (List.mem_map.mpr ⟨p, List.mem_eraseIdx_iff_getElem?.mpr ⟨j, ?_, hj⟩, rfl⟩)
      rintro rfl
      rw [hi] at hj
      exact hne (congrArg Prod.fst (Option.some.inj hj)).symm
    have htelling : ∀ p ∈ s.master.telling.eraseIdx i, s.master.node.knows p.1 = !p.2 :=
      fun p hp => h.telling p (List.mem_of_mem_eraseIdx hp)
    rw [Master.send]
    split
    · rename_i hconn
      -- what is queued last says what the master knows
      have hboth : ∀ n old (q : List Msg), n ∉ (s.master.telling.eraseIdx i).map Prod.fst → n ≠ defaultName →
          n ≠ systemName → (s.plain n → tells n q old = s.master.node.knows n) →
          tells n (q ++ [.workspace name removed]) old = s.master.node.knows n := by
        intro n old q hn hd hsys himp
        rw [tells_snoc, Msg.tells]
        by_cases heq : name = n
        · rw [if_pos heq, ← heq, hknows]
        · rw [if_neg heq]
          exact himp (plain_iff.mpr ⟨hd, hsys, hothers n hn (Ne.symm heq)⟩)
      refine ⟨htelling, honce, fun hp => ?_, fun hl n hn => ?_, fun q seq n o q' hq hn => ?_,
        fun rest hr n hmem hn => ?_, fun rest hr r hr' n hn => ?_⟩
      · simp [Master.connected, show s.master.phase = .away from hp] at hconn
      · obtain ⟨hd, hsys, hn⟩ := plain_iff.mp hn
        exact hboth n _ _ hn hd hsys fun hpl => h.same hl n hpl
      · obtain ⟨hd, hsys, hn⟩ := plain_iff.mp hn
        rcases List.eq_nil_or_concat q' with rfl | ⟨q'', msg, rfl⟩
        · obtain ⟨-, heq⟩ := List.append_inj' hq rfl
          cases heq
        · rw [List.concat_eq_append, ← List.cons_append, ← List.append_assoc] at hq
          obtain ⟨hinit, heq⟩ := List.append_inj' hq rfl
          obtain rfl := (List.cons.inj heq).1
          rw [List.concat_eq_append]
          exact hboth n _ _ hn hd hsys fun hpl => h.used q seq n o q'' hinit hpl
      · obtain ⟨hd, hsys, hn⟩ := plain_iff.mp hn
        exact hboth n _ _ hn hd hsys fun hpl => h.listed rest hr n hmem hpl
      · obtain ⟨hd, hsys, hn⟩ := plain_iff.mp hn
        exact hboth n _ _ hn hd hsys fun hpl => h.shown rest hr r hr' n hpl
    · rename_i hconn
      have hp := Master.phase_of_not_connected hconn
      obtain ⟨hq, hn⟩ := h.away hp
      have hnone : s.master.phase.left = none := by
        rw [hp]
        rfl
      refine ⟨htelling, honce, fun _ => ⟨hq, hn⟩, fun _ n _ => ?_, fun q seq n o q' hq' _ => ?_,
        fun rest hr => ?_, fun rest hr => ?_⟩
      · show tells n s.master.queue _ = _
        rw [hq]
        rfl
      · have hq' : s.master.queue = q ++ .op seq n o :: q' := hq'
        simp [hq] at hq'
      · have hr : s.master.phase.left = some rest := hr
        rw [hnone] at hr
        cases hr
      · have hr : s.master.phase.left = some rest := hr
        rw [hnone] at hr
        cases hr
  · cases hm

end Link

theorem Flow.registers_step {f f' : Flow} {e : Event} (h : f.link.Registers) (hc : f.Clean e = true)
    (hs : f.step e = some f') : f'.link.Registers := by
  cases e with
  | turn t =>
      simp only [Flow.step, Option.map_eq_some_iff] at hs
      obtain ⟨s', hs', rfl⟩ := hs
      refine h.turn hs' ?_
      rintro name op rfl hconn
      simp only [Flow.Clean, hconn, Bool.not_true, Bool.false_or, Bool.and_eq_true, Bool.or_eq_true,
        decide_eq_true_eq] at hc
      exact hc.1
  | create name files =>
      simp only [Flow.step, Option.map_eq_some_iff] at hs
      obtain ⟨m, hm, rfl⟩ := hs
      simp only [Flow.Clean, Bool.and_eq_true] at hc
      rw [Master.createWorkspace] at hm
      split at hm
      · cases hm
      · rename_i hk
        split at hm
        · rename_i hv
          obtain rfl := Option.some.inj hm
          refine h.changes hc.1 rfl ?_ (fun n _ hne => ?_) ?_ rfl rfl
          · exact (Node.knows_add _ _ _ hv).trans (by simp)
          · exact (Node.knows_add _ _ _ hv).trans (by simp [hne])
          · rintro rfl
            exact hk (Node.knows_default _)
        · cases hm
  | remove name =>
      simp only [Flow.step, Option.map_eq_some_iff] at hs
      obtain ⟨m, hm, rfl⟩ := hs
      rw [Master.removeWorkspace] at hm
      split at hm
      · rename_i hname
        obtain rfl := Option.some.inj hm
        refine h.changes hc rfl ?_ (fun n hd hne => ?_) hname.1 rfl rfl
        · exact (Node.knows_remove _ _ _ hname.1).trans (by simp)
        · exact (Node.knows_remove _ _ _ hd).trans (by simp [hne])
      · cases hm
  | tell i =>
      simp only [Flow.step, Option.map_eq_some_iff] at hs
      obtain ⟨m, hm, rfl⟩ := hs
      exact h.tell hm

end

end KivaDb.Repl
