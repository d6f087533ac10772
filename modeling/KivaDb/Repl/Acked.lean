import KivaDb.Repl.Mirror
import KivaDb.Engine.Libraries

namespace KivaDb.Repl

open Lib Format

/-- What the files hold after the first `n` operations of a log. -/
def diskAt (first : Disk) (log : List (String × Op)) (n : Nat) : Disk :=
  (log.take n).foldl (fun d p => d.apply p.1 p.2) first

theorem diskAt_append {first : Disk} {log : List (String × Op)} {n : Nat} (h : n ≤ log.length) (p : String × Op) :
    diskAt first (log ++ [p]) n = diskAt first log n := by
  rw [diskAt, diskAt, List.take_append_of_le_length h]

theorem diskAt_snoc (first : Disk) (log : List (String × Op)) (p : String × Op) :
    diskAt first (log ++ [p]) (log.length + 1) = (diskAt first log log.length).apply p.1 p.2 := by
  rw [diskAt, diskAt, List.take_length, List.take_of_length_le (by simp), List.foldl_concat]

theorem diskAt_succ (first : Disk) {log rest : List (String × Op)} {n : Nat} {p : String × Op}
    (h : log.drop n = p :: rest) : diskAt first log (n + 1) = (diskAt first log n).apply p.1 p.2 := by
  have hlt : n < log.length := by
    by_contra hge
    rw [List.drop_of_length_le (by omega)] at h
    cases h
  have hget : log[n] = p := by
    rw [List.drop_eq_getElem_cons hlt] at h
    exact (List.cons.inj h).1
  rw [diskAt, diskAt, List.take_succ_eq_append_getElem hlt, List.foldl_append, hget]
  rfl

/-- Operations numbered after `n`, as they are queued. -/
def numbered : Nat → List (String × Op) → List Msg
  | _, [] => []
  | n, (name, op) :: ops => .op (n + 1) name op :: numbered (n + 1) ops

theorem numbered_append (n : Nat) (ops ops' : List (String × Op)) :
    numbered n (ops ++ ops') = numbered n ops ++ numbered (n + ops.length) ops' := by
  induction ops generalizing n with
  | nil => simp [numbered]
  | cons p ops ih => simp [numbered, ih, Nat.add_assoc, Nat.add_comm 1]

theorem mem_numbered {n : Nat} {ops : List (String × Op)} {msg : Msg} (h : msg ∈ numbered n ops) :
    ∃ seq name op, msg = .op seq name op := by
  induction ops generalizing n with
  | nil => simp [numbered] at h
  | cons p ops ih =>
      rcases List.mem_cons.mp h with rfl | h
      · exact ⟨_, _, _, rfl⟩
      · exact ih h

/-- The snapshot has read what a key of an engine holds, or with `none` some key
of it. -/
def Phase.passed : Phase → String → Option String → Bool
  | .spaces rest, n, _ => !rest.contains n
  | .entered name rest, n, _ => n ≠ name && !rest.contains n
  | .keys name todo rest, n, key => if n = name then key.all fun k => !todo.contains k else !rest.contains n
  | _, _, _ => false

/-- Of the engine the snapshot is in, the keys not yet read are not there. -/
def Phase.Inside (r : Replica) : Phase → Prop
  | .spaces rest => rest = [] → r.engine = systemName
  | .entered name _ => r.engine = name ∧ ∀ k : String, (r.node.disk.store name)[k]? = none
  | .keys name todo _ => r.engine = name ∧ ∀ k ∈ todo, (r.node.disk.store name)[k]? = none
  | _ => True

/-- The system database comes last, and no key is read twice. -/
def Phase.Ends : Phase → Prop
  | .spaces rest => rest ≠ [] → rest.getLast? = some systemName
  | .entered name rest => (name :: rest).getLast? = some systemName
  | .keys name todo rest => (name :: rest).getLast? = some systemName ∧ todo.Nodup
  | _ => True

theorem Phase.passed_of_touches {p : Phase} {n k : String} {op : Op} (h : p.passed n (some k) = true)
    (ht : Op.touches op k = true) : p.passed n (Op.key? op) = true := by
  cases hk : Op.key? op with
  | none =>
      cases p with
      | keys name todo rest =>
          simp only [Phase.passed] at h ⊢
          by_cases hn : n = name
          · rw [if_pos hn]
            rfl
          · rw [if_neg hn] at h ⊢
            exact h
      | away | begin_ | listing | spaces | entered | live => exact h
  | some key =>
      rw [Op.touches, hk] at ht
      obtain rfl : key = k := by simpa using ht
      exact h

/-- The snapshot is being sent. -/
def Phase.sending : Phase → Bool
  | .away | .live _ => false
  | _ => true

/-- A message about another key than `key?` of the engine `n`. -/
def Msg.apart (n : String) (key? : Option String) : Msg → Bool
  | .op _ m o => m ≠ n || (key?.isSome && (Op.key? o).isSome && Op.key? o ≠ key?)
  | .workspace .. => true

theorem Msg.not_apart {n m : String} {seq : Nat} {o o' : Op} {k : String}
    (h : Msg.apart n (Op.key? o) (.op seq m o') = true) (hn : m = n) (ht : Op.touches o k = true)
    (ht' : Op.touches o' k = true) : False := by
  subst hn
  simp only [Msg.apart, ne_eq, not_true_eq_false, decide_false, Bool.false_or, Bool.and_eq_true, decide_eq_true_eq] at h
  obtain ⟨⟨hs, hs'⟩, hne⟩ := h
  obtain ⟨a, ha⟩ := Option.isSome_iff_exists.mp hs
  obtain ⟨b, hb⟩ := Option.isSome_iff_exists.mp hs'
  simp only [Op.touches, ha, hb, Option.all_some, decide_eq_true_eq] at ht ht'
  exact hne (by rw [ha, hb, ht, ht'])

section

variable [Chrono] [Codec]

/-- A replica shows under `key` what an engine of the master held. -/
def Shows (now : Int64) (key : String) (held shown : Option Item) : Prop :=
  shown = held.bind (recode key) ∨ shown = none ∧ ∃ it, held = some it ∧ it.isExpired now = true

theorem Shows.later {now now' : Int64} {key : String} {held shown : Option Item} (ht : now ≤ now')
    (h : Shows now key held shown) : Shows now' key held shown := by
  rcases h with h | ⟨h, it, hit, hex⟩
  · exact .inl h
  · exact .inr ⟨h, it, hit, it.isExpired_mono ht hex⟩

namespace Link

/-- The names whose engines are replicated. -/
def covers (s : Link) (n : String) : Prop := n = systemName ∨ s.master.node.knows n = true

/-- A replica shows what the files `d` hold. -/
def Good (s : Link) (d : Disk) (r : Replica) : Prop :=
  ∀ n, s.covers n → ∀ k, Shows s.now k (d.store n)[k]? (r.node.disk.store n)[k]?

/-- The replica reflects the operations up to `n`. -/
def Reflects (s : Link) (first : Disk) (n : Nat) : Prop :=
  ∃ q, n ≤ q ∧ q ≤ s.log.length ∧ s.Good (diskAt first s.log q) s.replica

/-- An operation committed while the snapshot is sent is on a key it has not yet
read, and the first one on it; and what the snapshot reads can be read. -/
def Ahead (s : Link) : Turn → Bool
  | .write n op =>
      !s.master.phase.sending || (!s.master.phase.passed n (Op.key? op) && s.master.queue.all (Msg.apart n (Op.key? op)))
  | .serve readable => readable
  | _ => true

/-- Before the end of the snapshot is sent. -/
structure Window (s : Link) : Prop where
  quiet : s.acks = [] ∧ s.master.acked = 0 ∧ ∀ f ∈ s.net, f.acks = none
  queued : ∀ msg ∈ s.master.queue, ∃ seq n op, msg = .op seq n op ∧ 1 ≤ seq ∧ seq ≤ s.log.length ∧
    ∀ k, Op.touches op k = true → (s.master.node.disk.store n)[k]? = Op.leaves op
  shown : ∀ r, arrives s.replica s.net = some r → ∀ n, s.covers n → ∀ k, s.master.phase.passed n (some k) = true →
    Shows s.now k (s.master.node.disk.store n)[k]? (r.node.disk.store n)[k]?
  inside : ∀ r, arrives s.replica s.net = some r → Phase.Inside r s.master.phase
  ends : s.master.phase.Ends

/-- After the end of the snapshot is sent: the frames on their way end with the
operation `c`. -/
structure Sent (first : Disk) (s : Link) (current : String) (c : Nat) (window : List Msg) : Prop where
  bound : c ≤ s.log.length
  queue : s.master.queue = window ++ numbered c (s.log.drop c)
  window : ∀ msg ∈ window, ∃ seq n op, msg = .op seq n op ∧ 1 ≤ seq ∧ seq ≤ c ∧
    ∀ k, Op.touches op k = true → ((diskAt first s.log c).store n)[k]? = Op.leaves op
  last : ∀ r, arrives s.replica s.net = some r → r.engine = current ∧ s.Good (diskAt first s.log c) r
  told : ∀ n ∈ s.master.acked :: (s.acks ++ s.net.filterMap Frame.acks), n ≤ c
  every : ∀ fs gs r, s.net = fs ++ gs → arrives s.replica fs = some r →
    ∀ n ∈ s.master.acked :: (s.acks ++ fs.filterMap Frame.acks), 1 ≤ n →
      ∃ q, n ≤ q ∧ q ≤ s.log.length ∧ s.Good (diskAt first s.log q) r

/-- What is true of a link at any time. -/
structure Inv (first : Disk) (s : Link) : Prop where
  seq : s.master.seq = s.log.length
  disk : ∀ n, s.master.node.disk.store n = (diskAt first s.log s.log.length).store n
  opened : ∀ n ∈ s.master.opened, s.covers n
  away : s.master.phase = .away → s.master.queue = [] ∧ s.net = [] ∧ s.acks = [] ∧ s.master.acked = 0
  window : s.master.phase.sending = true → s.Window
  live : ∀ current, s.master.phase = .live current → ∃ c window, s.Sent first current c window

theorem Good.later {s s' : Link} {d : Disk} {r : Replica} (h : s.Good d r) (ht : s.now ≤ s'.now)
    (hk : s'.master.node.spaces = s.master.node.spaces) : s'.Good d r := by
  intro n hn k
  refine (h n ?_ k).later ht
  rw [covers, Node.knows, hk] at hn
  exact hn

section

variable {first : Disk} {s s' : Link}

theorem Inv.tick (h : s.Inv first) {t : Int64} (hs : s.step (.tick t) = some s') : s'.Inv first := by
  simp only [step] at hs
  split at hs
  · rename_i ht
    cases hs
    refine ⟨h.seq, h.disk, h.opened, h.away, fun hp => ?_, fun cur hp => ?_⟩
    · have hw := h.window hp
      exact ⟨hw.quiet, hw.queued, fun r hr n hn k hk => (hw.shown r hr n hn k hk).later ht, hw.inside, hw.ends⟩
    · obtain ⟨c, window, hl⟩ := h.live cur hp
      refine ⟨c, window, hl.bound, hl.queue, hl.window, fun r hr => ⟨(hl.last r hr).1, (hl.last r hr).2.later ht rfl⟩,
        hl.told, fun fs gs r hnet hr n hn hpos => ?_⟩
      obtain ⟨q, hq, hle, hg⟩ := hl.every fs gs r hnet hr n hn hpos
      exact ⟨q, hq, hle, hg.later ht rfl⟩
  · cases hs

theorem Inv.ack (h : s.Inv first) (hs : s.step .ack = some s') : s'.Inv first := by
  simp only [step] at hs
  split at hs
  · cases hs
  · rename_i n acks hacks
    cases hs
    refine ⟨h.seq, h.disk, h.opened, fun hp => ?_, fun hp => ?_, fun cur hp => ?_⟩
    · exact absurd (hacks.symm.trans (h.away hp).2.2.1) (by simp)
    · exact absurd (hacks.symm.trans (h.window hp).quiet.1) (by simp)
    · obtain ⟨c, window, hl⟩ := h.live cur hp
      have hmem : ∀ m (fs : List Frame), m ∈ max s.master.acked n :: (acks ++ fs.filterMap Frame.acks) →
          m ∈ s.master.acked :: (s.acks ++ fs.filterMap Frame.acks) := by
        intro m fs hm
        rw [hacks]
        rcases List.mem_cons.mp hm with rfl | hm
        · rcases max_choice s.master.acked n with hmax | hmax
          · rw [hmax]
            exact List.mem_cons_self
          · rw [hmax]
            exact List.mem_cons_of_mem _ List.mem_cons_self
        · exact List.mem_cons_of_mem _ (List.mem_cons_of_mem _ hm)
      exact ⟨c, window, hl.bound, hl.queue, hl.window, hl.last, fun m hm => hl.told m (hmem m _ hm),
        fun fs gs r hnet hr m hm hpos => hl.every fs gs r hnet hr m (hmem m fs hm) hpos⟩

theorem Inv.follow (h : s.Inv first) (hs : s.step .follow = some s') : s'.Inv first := by
  simp only [step] at hs
  split at hs
  · cases hs
  · rename_i f net hnet
    split at hs
    · rename_i r a hf
      cases hs
      obtain ⟨-, -, rfl⟩ := follow_ok hf
      refine ⟨h.seq, h.disk, h.opened, fun hp => ?_, fun hp => ?_, fun cur hp => ?_⟩
      · exact absurd (hnet.symm.trans (h.away hp).2.1) (by simp)
      · have hw := h.window hp
        have hquiet : f.acks = none := hw.quiet.2.2 f (hnet ▸ List.mem_cons_self)
        have harr : ∀ q, arrives r net = some q → arrives s.replica s.net = some q := by
          intro q hq
          rw [hnet, arrives_cons hf]
          exact hq
        refine ⟨⟨by simp [hw.quiet.1, hquiet], hw.quiet.2.1, fun g hg => hw.quiet.2.2 g ?_⟩, hw.queued,
          fun q hq => hw.shown q (harr q hq), fun q hq => hw.inside q (harr q hq), hw.ends⟩
        rw [hnet]
        exact List.mem_cons_of_mem _ hg
      · obtain ⟨c, window, hl⟩ := h.live cur hp
        have hmem : ∀ m (fs : List Frame), m ∈ s.master.acked :: (s.acks ++ f.acks.toList ++ fs.filterMap Frame.acks) →
            m ∈ s.master.acked :: (s.acks ++ (f :: fs).filterMap Frame.acks) := by
          intro m fs hm
          have hcons : (f :: fs).filterMap Frame.acks = f.acks.toList ++ fs.filterMap Frame.acks := by
            cases hfa : f.acks with
            | none => simp [hfa]
            | some x => simp [hfa]
          rw [hcons, ← List.append_assoc]
          exact hm
        refine ⟨c, window, hl.bound, hl.queue, hl.window, fun q hq => hl.last q ?_, fun m hm => hl.told m ?_,
          fun fs gs q hsplit hq m hm hpos => ?_⟩
        · rw [hnet, arrives_cons hf]
          exact hq
        · rw [hnet]
          exact hmem m net hm
        · refine hl.every (f :: fs) gs q ?_ ?_ m (hmem m fs hm) hpos
          · rw [hnet, List.cons_append]
            exact congrArg (f :: ·) hsplit
          · rw [arrives_cons hf]
            exact hq
    · cases hs

theorem Inv.connect (h : s.Inv first) (hs : s.step .connect = some s') : s'.Inv first := by
  simp only [step] at hs
  split at hs
  · rename_i hp
    cases hs
    obtain ⟨hq, hn, ha, hz⟩ := h.away hp
    refine ⟨h.seq, h.disk, h.opened, fun hp' => by simp at hp', fun _ => ?_, fun cur hp' => by simp at hp'⟩
    refine ⟨⟨ha, hz, by simp [hn]⟩, by simp [hq], fun r _ n _ k hk => by simp [Phase.passed] at hk, fun r _ => trivial,
      trivial⟩
  · cases hs

theorem Inv.covers_of_reaches (h : s.Inv first) {n : String} (hr : s.master.reaches n = true) : s.covers n := by
  simp only [Master.reaches, Bool.or_eq_true, decide_eq_true_eq, List.contains_iff_mem] at hr
  rcases hr with (rfl | hr) | hr
  · exact .inl rfl
  · exact h.opened n hr
  · exact .inr hr

theorem covers_openEngine (h : s.Inv first) {n : String} (hn : s.covers n) :
    ∀ m ∈ (s.master.openEngine n).opened, s.covers m := by
  intro m hm
  simp only [Master.openEngine] at hm
  split at hm
  · exact h.opened m hm
  · rcases List.mem_append.mp hm with hm | hm
    · exact h.opened m hm
    · exact List.mem_singleton.mp hm ▸ hn

theorem Inv.write (h : s.Inv first) {name : String} {op : Op} (ha : s.Ahead (.write name op) = true)
    (hs : s.step (.write name op) = some s') : s'.Inv first := by
  simp only [step, Option.map_eq_some_iff] at hs
  obtain ⟨m', hm, rfl⟩ := hs
  have hw := Master.write_some hm
  have hcov := h.covers_of_reaches hw.reaches
  have hknows : ∀ n, m'.node.knows n = s.master.node.knows n := by
    intro n
    rw [Node.knows, Node.knows, hw.spaces]
  refine ⟨?_, fun n => ?_, ?_, fun hp => ?_, fun hp => ?_, fun cur hp => ?_⟩
  · rw [hw.seq, h.seq]
    simp
  · rw [hw.store, h.disk]
    simp only [List.length_append, List.length_singleton, diskAt_snoc, Disk.store_apply]
  · intro n hn
    have hopen := covers_openEngine h hcov n (hw.opened ▸ hn)
    rw [covers] at hopen ⊢
    rw [hknows]
    exact hopen
  · rw [hw.phase] at hp
    have hnot : s.master.connected = false := by rw [Master.connected, hp]
    obtain ⟨hq, hn, hacks, hz⟩ := h.away hp
    exact ⟨by rw [hw.queue, hnot]; exact hq, hn, hacks, hw.acked.trans hz⟩
  · rw [hw.phase] at hp
    have hwin := h.window hp
    simp only [Ahead, hp, Bool.not_true, Bool.false_or, Bool.and_eq_true, Bool.not_eq_true', List.all_eq_true] at ha
    obtain ⟨hpass, hapart⟩ := ha
    have hconn : s.master.connected = true := by
      rw [Master.connected]
      cases hph : s.master.phase <;> simp_all [Phase.sending]
    refine ⟨⟨hwin.quiet.1, hw.acked.trans hwin.quiet.2.1, hwin.quiet.2.2⟩, ?_, ?_, ?_, ?_⟩
    · intro msg hmsg
      rw [hw.queue, if_pos hconn] at hmsg
      rcases List.mem_append.mp hmsg with hmsg | hmsg
      · obtain ⟨seq, n, o, rfl, hpos, hle, hval⟩ := hwin.queued msg hmsg
        refine ⟨seq, n, o, rfl, hpos, by simp; omega, fun k hk => ?_⟩
        rw [hw.store]
        split
        · rename_i hn
          rw [Store.getElem?_apply, if_neg fun ht => Msg.not_apart (hapart _ hmsg) hn ht hk]
          exact hval k hk
        · exact hval k hk
      · obtain rfl := List.mem_singleton.mp hmsg
        refine ⟨_, name, op, rfl, by omega, by simp [h.seq], fun k hk => ?_⟩
        rw [hw.store, if_pos rfl, Store.getElem?_apply, if_pos hk]
    · intro r hr n hn k hk
      rw [covers, hknows] at hn
      rw [hw.phase] at hk
      rw [hw.store]
      split
      · rename_i heq
        subst heq
        have hno : ¬ Op.touches op k = true := by
          intro ht
          rw [Phase.passed_of_touches hk ht] at hpass
          cases hpass
        rw [Store.getElem?_apply, if_neg hno]
        exact hwin.shown r hr n hn k hk
      · exact hwin.shown r hr n hn k hk
    · rw [hw.phase]
      exact hwin.inside
    · rw [hw.phase]
      exact hwin.ends
  · rw [hw.phase] at hp
    obtain ⟨c, window, hl⟩ := h.live cur hp
    have hconn : s.master.connected = true := by rw [Master.connected, hp]
    have hgood : ∀ q r, q ≤ s.log.length → s.Good (diskAt first s.log q) r →
        Good { s with master := m', log := s.log ++ [(name, op)] } (diskAt first (s.log ++ [(name, op)]) q) r := by
      intro q r hq hg
      rw [diskAt_append hq]
      exact hg.later (Int64.le_refl _) hw.spaces
    refine ⟨c, window, ?_, ?_, ?_, fun r hr => ⟨(hl.last r hr).1, hgood c r hl.bound (hl.last r hr).2⟩, ?_, ?_⟩
    · have := hl.bound
      simp
      omega
    · rw [hw.queue, if_pos hconn, hl.queue, List.drop_append_of_le_length hl.bound, numbered_append, List.append_assoc,
        List.length_drop, h.seq, Nat.add_sub_cancel' hl.bound]
      rfl
    · intro msg hmsg
      rw [diskAt_append hl.bound]
      exact hl.window msg hmsg
    · rw [hw.acked]
      exact hl.told
    · intro fs gs r hnet hr n hn hpos
      rw [hw.acked] at hn
      obtain ⟨q, hq, hle, hg⟩ := hl.every fs gs r hnet hr n hn hpos
      exact ⟨q, hq, by simp; omega, hgood q r hle hg⟩

/-- The snapshot goes on, with frames that leave on the replica what the next
phase says. -/
theorem Window.goesOn (hw : s.Window) {m : Master} {fs : List Frame}
    (hstore : ∀ n, m.node.disk.store n = s.master.node.disk.store n) (hspaces : m.node.spaces = s.master.node.spaces)
    (hqueue : m.queue = s.master.queue) (hacked : m.acked = s.master.acked) (hfs : ∀ f ∈ fs, f.acks = none)
    (hnext : ∀ r, arrives s.replica s.net = some r → ∀ r', arrives r fs = some r' →
      (∀ n, s.covers n → ∀ k, m.phase.passed n (some k) = true →
        Shows s.now k (s.master.node.disk.store n)[k]? (r'.node.disk.store n)[k]?) ∧ Phase.Inside r' m.phase)
    (hends : m.phase.Ends) : Window { s with master := m, net := s.net ++ fs } := by
  refine ⟨⟨hw.quiet.1, hacked.trans hw.quiet.2.1, fun f hf => ?_⟩, fun msg hmsg => ?_, fun r hr n hn k hk => ?_,
    fun r hr => ?_, hends⟩
  · rcases List.mem_append.mp hf with hf | hf
    · exact hw.quiet.2.2 f hf
    · exact hfs f hf
  · obtain ⟨seq, n, op, hop, hpos, hle, hval⟩ := hw.queued msg (hqueue ▸ hmsg)
    refine ⟨seq, n, op, hop, hpos, hle, fun k hk => ?_⟩
    rw [hstore]
    exact hval k hk
  · obtain ⟨q, hq, hfs'⟩ := arrives_append.mp hr
    rw [covers, Node.knows, hspaces] at hn
    rw [hstore]
    exact (hnext q hq r hfs').1 n hn k hk
  · obtain ⟨q, hq, hfs'⟩ := arrives_append.mp hr
    exact (hnext q hq r hfs').2

theorem arrives_nil {r r' : Replica} (h : arrives r [] = some r') : r' = r := (Option.some.inj h).symm

/-- An engine is entered: the replica empties its own. -/
theorem arrives_enter {r r' : Replica} {name : String} (h : arrives r [.use name, .reset 0] = some r') :
    r'.engine = name ∧ ∀ n k : String, (r'.node.disk.store n)[k]? =
      if n = name then none else (r.node.disk.store n)[k]? := by
  have hcons : [Frame.use name, Frame.reset 0] = [Frame.use name] ++ [Frame.reset 0] := rfl
  rw [hcons] at h
  obtain ⟨q, hq, hr⟩ := arrives_append.mp h
  obtain ⟨a, ha⟩ := arrives_one.mp hq
  obtain ⟨b, hb⟩ := arrives_one.mp hr
  obtain ⟨hs1, he1, -⟩ := follow_ok ha
  obtain ⟨hs2, he2, -⟩ := follow_ok hb
  have hq : q.engine = name := he1
  refine ⟨he2.trans hq, fun n k => ?_⟩
  rw [hs2, hs1, hq]
  rfl

theorem Inv.enter (h : s.Inv first) {name : String} {rest : List String} (hp : s.master.phase = .spaces (name :: rest))
    (hr : s.master.reaches name = true) :
    Inv first { s with
      master := { s.master.openEngine name with phase := .entered name rest }
      net := s.net ++ [.use name, .reset 0] } := by
  have hw := h.window (by rw [hp]; rfl)
  refine ⟨h.seq, fun n => ?_, covers_openEngine h (h.covers_of_reaches hr), fun hp' => by simp at hp', fun _ => ?_,
    fun cur hp' => by simp at hp'⟩
  · exact (Disk.store_opened _ _ _).trans (h.disk n)
  · refine hw.goesOn (fun n => Disk.store_opened _ _ _) rfl rfl rfl ?_ ?_ ?_
    · intro f hf
      rcases List.mem_pair.mp hf with rfl | rfl
      · rfl
      · rfl
    · intro r hr' r' hr''
      obtain ⟨heng, hstore⟩ := arrives_enter hr''
      refine ⟨fun n hn k hk => ?_, heng, fun k => by rw [hstore, if_pos rfl]⟩
      simp only [Phase.passed, ne_eq, Bool.and_eq_true, decide_eq_true_eq, Bool.not_eq_true', List.contains_eq_mem,
        decide_eq_false_iff_not] at hk
      rw [hstore, if_neg hk.1]
      refine hw.shown r hr' n hn k ?_
      rw [hp]
      simp [Phase.passed, hk]
    · have hends := hw.ends
      rw [hp] at hends
      exact hends (by simp)

theorem Inv.skip (h : s.Inv first) {name : String} {rest : List String} (hp : s.master.phase = .spaces (name :: rest))
    (hr : s.master.reaches name = false) :
    Inv first { s with master := { s.master with phase := .spaces rest }, net := s.net ++ [] } := by
  have hw := h.window (by rw [hp]; rfl)
  have hends := hw.ends
  rw [hp] at hends
  have hne : rest ≠ [] := by
    rintro rfl
    obtain rfl : name = systemName := by simpa using hends (by simp)
    simp [Master.reaches] at hr
  refine ⟨h.seq, h.disk, h.opened, fun hp' => by simp at hp', fun _ => ?_, fun cur hp' => by simp at hp'⟩
  refine hw.goesOn (fun n => rfl) rfl rfl rfl (by simp) ?_ ?_
  · intro r hr' r' hr''
    obtain rfl := arrives_nil hr''
    refine ⟨fun n hn k hk => ?_, fun hnil => absurd hnil hne⟩
    by_cases hnn : n = name
    · subst hnn
      simp only [Master.reaches, Bool.or_eq_false_iff, decide_eq_false_iff_not] at hr
      rcases hn with rfl | hn
      · exact absurd rfl hr.1.1
      · rw [hr.2] at hn
        cases hn
    · refine hw.shown r' hr' n hn k ?_
      rw [hp]
      simpa [Phase.passed, hnn] using hk
  · intro _
    rw [← hends (by simp)]
    cases rest with
    | nil => exact absurd rfl hne
    | cons n rest => rfl

theorem Inv.list (h : s.Inv first) {name : String} {rest : List String} (hp : s.master.phase = .entered name rest) :
    Inv first { s with
      master := { s.master with phase := .keys name ((s.master.node.disk.store name).range s.now) rest }
      net := s.net ++ [] } := by
  have hw := h.window (by rw [hp]; rfl)
  refine ⟨h.seq, h.disk, h.opened, fun hp' => by simp at hp', fun _ => ?_, fun cur hp' => by simp at hp'⟩
  refine hw.goesOn (fun n => rfl) rfl rfl rfl (by simp) ?_ ?_
  · intro r hr r' hr'
    obtain rfl := arrives_nil hr'
    have hin := hw.inside r' hr
    rw [hp] at hin
    refine ⟨fun n hn k hk => ?_, hin.1, fun k _ => hin.2 k⟩
    simp only [Phase.passed] at hk
    split at hk
    · rename_i heq
      subst heq
      rw [hin.2]
      cases hm : (s.master.node.disk.store n)[k]? with
      | none => exact .inl rfl
      | some it =>
          refine .inr ⟨rfl, it, rfl, ?_⟩
          by_contra hex
          have hmem : k ∈ (s.master.node.disk.store n).range s.now := Store.mem_range.mpr ⟨it, hm, by simpa using hex⟩
          simp [hmem] at hk
    · rename_i hne
      refine hw.shown r' hr n hn k ?_
      rw [hp]
      simpa [Phase.passed, hne] using hk
  · have hends := hw.ends
    rw [hp] at hends
    exact ⟨hends, Store.nodup_range _ _⟩

theorem Inv.leave (h : s.Inv first) {name : String} {rest : List String} (hp : s.master.phase = .keys name [] rest) :
    Inv first { s with master := { s.master with phase := .spaces rest }, net := s.net ++ [] } := by
  have hw := h.window (by rw [hp]; rfl)
  have hends := hw.ends
  rw [hp] at hends
  refine ⟨h.seq, h.disk, h.opened, fun hp' => by simp at hp', fun _ => ?_, fun cur hp' => by simp at hp'⟩
  refine hw.goesOn (fun n => rfl) rfl rfl rfl (by simp) ?_ ?_
  · intro r hr r' hr'
    obtain rfl := arrives_nil hr'
    have hin := hw.inside r' hr
    rw [hp] at hin
    refine ⟨fun n hn k hk => hw.shown r' hr n hn k ?_, fun hnil => ?_⟩
    · rw [hp]
      simp only [Phase.passed] at hk ⊢
      split
      · simp
      · exact hk
    · subst hnil
      exact hin.1.trans (by simpa using hends.1)
  · intro hne
    rw [← hends.1]
    cases rest with
    | nil => exact absurd rfl hne
    | cons n rest => rfl

theorem Inv.read (h : s.Inv first) {name key : String} {todo rest : List String}
    (hp : s.master.phase = .keys name (key :: todo) rest) {fs : List Frame}
    (hfs : fs = match (s.master.node.disk.store name).liveAt key s.now with
      | some item => [.set 0 key item]
      | none => []) :
    Inv first { s with master := { s.master with phase := .keys name todo rest }, net := s.net ++ fs } := by
  have hw := h.window (by rw [hp]; rfl)
  have hends := hw.ends
  rw [hp] at hends
  obtain ⟨hlast, hnodup⟩ := hends
  obtain ⟨hkey, hnodup⟩ := List.nodup_cons.mp hnodup
  refine ⟨h.seq, h.disk, h.opened, fun hp' => by simp at hp', fun _ => ?_, fun cur hp' => by simp at hp'⟩
  refine hw.goesOn (fun n => rfl) rfl rfl rfl ?_ ?_ ⟨hlast, hnodup⟩
  · intro f hf
    rw [hfs] at hf
    cases hl : (s.master.node.disk.store name).liveAt key s.now with
    | none => simp [hl] at hf
    | some item =>
        rw [hl] at hf
        obtain rfl := List.mem_singleton.mp hf
        rfl
  · intro r hr r' hr'
    have hin := hw.inside r hr
    rw [hp] at hin
    obtain ⟨heng, hnone⟩ := hin
    have hold : ∀ n, s.covers n → ∀ k, (n = name → k ≠ key) → Phase.passed (.keys name todo rest) n (some k) = true →
        Shows s.now k (s.master.node.disk.store n)[k]? (r.node.disk.store n)[k]? := by
      intro n hn k hk hpass
      refine hw.shown r hr n hn k ?_
      rw [hp]
      simp only [Phase.passed] at hpass ⊢
      split
      · rename_i heq
        rw [if_pos heq] at hpass
        simpa [hk heq] using hpass
      · rename_i hne
        rw [if_neg hne] at hpass
        exact hpass
    cases hl : (s.master.node.disk.store name).liveAt key s.now with
    | none =>
        rw [hl] at hfs
        subst hfs
        obtain rfl := arrives_nil hr'
        refine ⟨fun n hn k hk => ?_, heng, fun k hk => hnone k (List.mem_cons_of_mem _ hk)⟩
        by_cases hnk : n = name ∧ k = key
        · obtain ⟨rfl, rfl⟩ := hnk
          rw [hnone k List.mem_cons_self]
          cases hm : (s.master.node.disk.store n)[k]? with
          | none => exact .inl rfl
          | some it =>
              refine .inr ⟨rfl, it, rfl, ?_⟩
              simpa [Store.liveAt, hm] using hl
        · exact hold n hn k (fun hn' hk' => hnk ⟨hn', hk'⟩) hk
    | some item =>
        rw [hl] at hfs
        subst hfs
        obtain ⟨a, ha⟩ := arrives_one.mp hr'
        obtain ⟨hs1, he1, -⟩ := follow_ok ha
        have hitem : (s.master.node.disk.store name)[key]? = some item := by
          rw [Store.liveAt] at hl
          exact (Option.eq_some_of_filter_eq_some hl)
        refine ⟨fun n hn k hk => ?_, he1.trans heng, fun k hk => ?_⟩
        · rw [hs1, heng]
          simp only [Frame.leaves]
          by_cases hnk : n = name ∧ key = k
          · rw [if_pos hnk]
            obtain ⟨rfl, rfl⟩ := hnk
            rw [hitem]
            exact .inl rfl
          · rw [if_neg hnk]
            exact hold n hn k (fun hn' hk' => hnk ⟨hn', hk'.symm⟩) hk
        · rw [hs1, heng]
          have hne : ¬ (name = name ∧ key = k) := by
            rintro ⟨-, rfl⟩
            exact hkey hk
          show (if name = name ∧ key = k then _ else _) = none
          rw [if_neg hne]
          exact hnone k (List.mem_cons_of_mem _ hk)

/-- What was true at every point of the frames on their way still is with one more
at their end. -/
theorem every_push {net : List Frame} {f : Frame} {r₀ : Replica} {told : List Nat} {P : Nat → Replica → Prop}
    (h : ∀ fs gs r, net = fs ++ gs → arrives r₀ fs = some r → ∀ n ∈ told ++ fs.filterMap Frame.acks, 1 ≤ n → P n r)
    (hlast : ∀ r, arrives r₀ (net ++ [f]) = some r → ∀ n ∈ told ++ (net ++ [f]).filterMap Frame.acks, 1 ≤ n → P n r) :
    ∀ fs gs r, net ++ [f] = fs ++ gs → arrives r₀ fs = some r → ∀ n ∈ told ++ fs.filterMap Frame.acks, 1 ≤ n → P n r := by
  intro fs gs r hsplit hr n hn hpos
  rcases List.eq_nil_or_concat gs with rfl | ⟨gs', g, rfl⟩
  · rw [List.append_nil] at hsplit
    subst hsplit
    exact hlast r hr n hn hpos
  · rw [List.concat_eq_append, ← List.append_assoc] at hsplit
    obtain ⟨hnet, -⟩ := List.append_inj' hsplit rfl
    exact h fs gs' r hnet hr n hn hpos

theorem Inv.finish (h : s.Inv first) (hp : s.master.phase = .spaces []) :
    Inv first { s with
      master := { s.master with phase := .live systemName }, net := s.net ++ [.snapEnd s.master.seq] } := by
  have hw := h.window (by rw [hp]; rfl)
  obtain ⟨hacks, hacked, hquiet⟩ := hw.quiet
  have hnone : s.net.filterMap Frame.acks = [] := List.filterMap_eq_nil_iff.mpr hquiet
  have hgood : ∀ r, arrives s.replica (s.net ++ [.snapEnd s.master.seq]) = some r →
      r.engine = systemName ∧ s.Good (diskAt first s.log s.log.length) r := by
    intro r hr
    obtain ⟨q, hq, hone⟩ := arrives_append.mp hr
    obtain ⟨a, ha⟩ := arrives_one.mp hone
    obtain ⟨hs1, he1, -⟩ := follow_ok ha
    have hin := hw.inside q hq
    rw [hp] at hin
    refine ⟨he1.trans (hin rfl), fun n hn k => ?_⟩
    rw [hs1, ← h.disk]
    exact hw.shown q hq n hn k (by rw [hp]; rfl)
  refine ⟨h.seq, h.disk, h.opened, fun hp' => by simp at hp', fun hp' => by simp [Phase.sending] at hp', ?_⟩
  intro cur hcur
  obtain rfl : systemName = cur := by simpa using hcur
  refine ⟨s.log.length, s.master.queue, le_rfl, by simp [numbered], ?_, hgood, ?_, ?_⟩
  · intro msg hmsg
    obtain ⟨seq, n, op, hop, hpos, hle, hval⟩ := hw.queued msg hmsg
    refine ⟨seq, n, op, hop, hpos, hle, fun k hk => ?_⟩
    rw [← h.disk]
    exact hval k hk
  · intro n hn
    simp only [hacks, hacked, List.filterMap_append, hnone, List.nil_append, h.seq] at hn
    rcases List.mem_cons.mp hn with rfl | hn
    · omega
    · have : n = s.log.length := by simpa [Frame.acks] using hn
      omega
  · refine @every_push _ _ _ _ _ (s.master.acked :: s.acks) _ ?_ ?_
    · intro fs gs r hnet hr n hn hpos
      have hfs : fs.filterMap Frame.acks = [] :=
        List.filterMap_eq_nil_iff.mpr fun f hf => hquiet f (hnet ▸ List.mem_append_left _ hf)
      rw [hfs, hacks, hacked] at hn
      obtain rfl : n = 0 := by simpa using hn
      omega
    · intro r hr n hn hpos
      refine ⟨s.log.length, ?_, le_rfl, (hgood r hr).2⟩
      simp only [hacks, hacked, List.filterMap_append, hnone, List.nil_append, h.seq] at hn
      rcases List.mem_cons.mp hn with rfl | hn
      · omega
      · have : n = s.log.length := by simpa [Frame.acks] using hn
        omega

/-- The next operation of the queue is one the snapshot already shows, or the one
that comes after those sent. -/
theorem Sent.next {current : String} {c : Nat} {window queue : List Msg} (hl : s.Sent first current c window)
    {seq : Nat} {name : String} {op : Op} (hq : s.master.queue = .op seq name op :: queue) :
    ∃ c' window', c ≤ c' ∧ 1 ≤ seq ∧ seq ≤ c' ∧ c' ≤ s.log.length ∧ queue = window' ++ numbered c' (s.log.drop c') ∧
      (∀ msg ∈ window', ∃ seq n op, msg = .op seq n op ∧ 1 ≤ seq ∧ seq ≤ c' ∧
        ∀ k, Op.touches op k = true → ((diskAt first s.log c').store n)[k]? = Op.leaves op) ∧
      ∀ n k : String, ((diskAt first s.log c').store n)[k]? =
        if n = name ∧ Op.touches op k = true then Op.leaves op else ((diskAt first s.log c).store n)[k]? := by
  have hqueue := hl.queue
  rw [hq] at hqueue
  cases window with
  | cons msg window =>
      obtain ⟨hmsg, hrest⟩ := List.cons.inj hqueue
      obtain ⟨seq', n, o, ho, hpos, hle, hval⟩ := hl.window msg List.mem_cons_self
      rw [ho, Msg.op.injEq] at hmsg
      obtain ⟨rfl, rfl, rfl⟩ := hmsg
      refine ⟨c, window, le_rfl, hpos, hle, hl.bound, hrest, fun m hm => hl.window m (List.mem_cons_of_mem _ hm), ?_⟩
      intro n k
      split
      · rename_i hnk
        rw [hnk.1]
        exact hval k hnk.2
      · rfl
  | nil =>
      cases hdrop : s.log.drop c with
      | nil => simp [hdrop, numbered] at hqueue
      | cons p rest =>
          obtain ⟨n, o⟩ := p
          rw [hdrop, List.nil_append, numbered] at hqueue
          obtain ⟨hmsg, hrest⟩ := List.cons.inj hqueue
          rw [Msg.op.injEq] at hmsg
          obtain ⟨rfl, rfl, rfl⟩ := hmsg
          have hlt : c < s.log.length := by
            by_contra hge
            rw [List.drop_of_length_le (by omega)] at hdrop
            cases hdrop
          have hdrop' : s.log.drop (c + 1) = rest := by
            rw [← List.drop_drop, hdrop]
            rfl
          refine ⟨c + 1, [], by omega, by omega, le_rfl, hlt, by rw [hdrop']; exact hrest, by simp, ?_⟩
          intro n k
          rw [diskAt_succ first hdrop, Disk.store_apply]
          by_cases hn : n = name
          · rw [if_pos hn, Store.getElem?_apply]
            simp [hn]
          · rw [if_neg hn, if_neg fun h => hn h.1]

/-- Entering an engine shows what was shown. -/
theorem Good.use {d : Disk} {r r' : Replica} (hg : s.Good d r) {name : String} {a : Option Nat}
    (hf : Repl.follow r (.use name) = .ok (r', a)) : r'.engine = name ∧ s.Good d r' := by
  obtain ⟨hs1, he1, -⟩ := follow_ok hf
  refine ⟨he1, fun n hn k => ?_⟩
  rw [hs1]
  exact hg n hn k

theorem Good.frame {d d' : Disk} {r r' : Replica} {name : String} {op : Op} (hg : s.Good d r) (he : r.engine = name)
    (hd : ∀ n k : String, (d'.store n)[k]? =
      if n = name ∧ Op.touches op k = true then Op.leaves op else (d.store n)[k]?)
    {seq : Nat} {a : Option Nat} (hf : Repl.follow r (Op.frame seq op) = .ok (r', a)) :
    r'.engine = name ∧ s.Good d' r' := by
  obtain ⟨hs1, he1, -⟩ := follow_ok hf
  refine ⟨(he1.trans (enters_frame seq op _)).trans he, fun n hn k => ?_⟩
  rw [hs1, leaves_frame, hd, he]
  split
  · exact .inl rfl
  · exact hg n hn k

theorem Inv.forward (h : s.Inv first) {current : String} (hp : s.master.phase = .live current) {m : Master}
    {fs : List Frame} (hm : s.master.forward current = some (m, fs)) :
    Inv first { s with master := m, net := s.net ++ fs } := by
  obtain ⟨c, window, hl⟩ := h.live current hp
  cases hq : s.master.queue with
  | nil => simp [Master.forward, hq] at hm
  | cons msg queue =>
      have hop : ∃ seq n op, msg = .op seq n op := by
        have hmem : msg ∈ window ++ numbered c (s.log.drop c) := by
          rw [← hl.queue, hq]
          exact List.mem_cons_self
        rcases List.mem_append.mp hmem with hmem | hmem
        · obtain ⟨seq, n, op, hop, -⟩ := hl.window msg hmem
          exact ⟨seq, n, op, hop⟩
        · exact mem_numbered hmem
      obtain ⟨seq, name, op, rfl⟩ := hop
      obtain ⟨c', window', hcc, hpos, hsc, hle, hqueue, hwin, hd⟩ := hl.next hq
      simp only [Master.forward, hq, Option.some.injEq, Prod.mk.injEq] at hm
      obtain ⟨rfl, rfl⟩ := hm
      refine ⟨h.seq, h.disk, h.opened, fun hp' => by simp at hp', fun hp' => by simp [Phase.sending] at hp', ?_⟩
      intro cur hcur
      obtain rfl : name = cur := by simpa using hcur
      set uses : List Frame := if name = current then [] else [.use name] with huses
      have hnone : uses.filterMap Frame.acks = [] := by
        rw [huses]
        split <;> rfl
      have hentered : ∀ r, arrives s.replica (s.net ++ uses) = some r →
          r.engine = name ∧ s.Good (diskAt first s.log c) r := by
        intro r hr
        obtain ⟨q, hq, hu⟩ := arrives_append.mp hr
        rw [huses] at hu
        split at hu
        · rename_i heq
          obtain rfl := arrives_nil hu
          rw [heq]
          exact hl.last r hq
        · obtain ⟨a, ha⟩ := arrives_one.mp hu
          exact (hl.last q hq).2.use ha
      have hsent : ∀ r, arrives s.replica (s.net ++ uses ++ [Op.frame seq op]) = some r →
          r.engine = name ∧ s.Good (diskAt first s.log c') r := by
        intro r hr
        obtain ⟨q, hq, hu⟩ := arrives_append.mp hr
        obtain ⟨a, ha⟩ := arrives_one.mp hu
        obtain ⟨heng, hg⟩ := hentered q hq
        exact hg.frame heng hd ha
      have htold : ∀ n ∈ s.master.acked :: (s.acks ++ (s.net ++ uses ++ [Op.frame seq op]).filterMap Frame.acks),
          n ≤ c' := by
        intro n hn
        rw [List.filterMap_append, List.filterMap_append, hnone, List.append_nil, ← List.append_assoc,
          ← List.cons_append] at hn
        rcases List.mem_append.mp hn with hn | hn
        · exact (hl.told n hn).trans hcc
        · have : n = seq := by simpa [acks_frame hpos] using hn
          omega
      rw [← List.append_assoc]
      refine ⟨c', window', hle, hqueue, hwin, hsent, htold, ?_⟩
      refine @every_push _ _ _ _ _ (s.master.acked :: s.acks) _ ?_ ?_
      · rw [huses]
        split
        · rw [List.append_nil]
          exact hl.every
        · rename_i hne
          refine every_push hl.every ?_
          intro r hr n hn hpos
          rw [List.filterMap_append] at hn
          refine ⟨c, hl.told n (by simpa [Frame.acks] using hn), hl.bound, (hentered r ?_).2⟩
          rw [huses, if_neg hne]
          exact hr
      · intro r hr n hn hpos
        exact ⟨c', htold n (by simpa using hn), hle, (hsent r hr).2⟩

theorem Inv.serve (h : s.Inv first) {readable : Bool} (ha : s.Ahead (.serve readable) = true)
    (hs : s.step (.serve readable) = some s') : s'.Inv first := by
  obtain rfl : readable = true := ha
  simp only [step, Option.map_eq_some_iff] at hs
  obtain ⟨⟨m, fs⟩, hm, rfl⟩ := hs
  cases hp : s.master.phase with
  | away => simp [Master.serve, hp] at hm
  | begin_ =>
      simp only [Master.serve, hp, Option.some.injEq, Prod.mk.injEq] at hm
      obtain ⟨rfl, rfl⟩ := hm
      have hw := h.window (by rw [hp]; rfl)
      refine ⟨h.seq, h.disk, h.opened, fun hp' => by simp at hp', fun _ => ?_, fun cur hp' => by simp at hp'⟩
      refine hw.goesOn (fun n => rfl) rfl rfl rfl ?_ ?_ trivial
      · intro f hf
        obtain rfl := List.mem_singleton.mp hf
        rfl
      · exact fun r _ r' _ => ⟨fun n _ k hk => by simp [Phase.passed] at hk, trivial⟩
  | listing =>
      simp only [Master.serve, hp, Option.some.injEq, Prod.mk.injEq] at hm
      obtain ⟨rfl, rfl⟩ := hm
      have hw := h.window (by rw [hp]; rfl)
      refine ⟨h.seq, h.disk, h.opened, fun hp' => by simp at hp', fun _ => ?_, fun cur hp' => by simp at hp'⟩
      refine hw.goesOn (fun n => rfl) rfl rfl rfl ?_ ?_ ?_
      · intro f hf
        obtain rfl := List.mem_singleton.mp hf
        rfl
      · refine fun r _ r' _ => ⟨fun n hn k hk => ?_, by simp [Phase.Inside]⟩
        rcases hn with rfl | hn
        · simp [Phase.passed] at hk
        · simp only [Node.knows, Bool.or_eq_true, decide_eq_true_eq, List.contains_iff_mem] at hn
          rcases hn with rfl | hn
          · simp [Phase.passed] at hk
          · simp [Phase.passed, hn] at hk
      · exact fun _ => List.getLast?_concat
  | spaces rest =>
      cases rest with
      | nil =>
          simp only [Master.serve, hp, Option.some.injEq, Prod.mk.injEq] at hm
          obtain ⟨rfl, rfl⟩ := hm
          exact h.finish hp
      | cons name rest =>
          simp only [Master.serve, hp] at hm
          split at hm
          · rename_i hr
            simp only [Option.some.injEq, Prod.mk.injEq] at hm
            obtain ⟨rfl, rfl⟩ := hm
            exact h.enter hp hr
          · rename_i hr
            simp only [Option.some.injEq, Prod.mk.injEq] at hm
            obtain ⟨rfl, rfl⟩ := hm
            exact h.skip hp (by simpa using hr)
  | entered name rest =>
      simp only [Master.serve, hp, Option.some.injEq, Prod.mk.injEq] at hm
      obtain ⟨rfl, rfl⟩ := hm
      exact h.list hp
  | keys name todo rest =>
      cases todo with
      | nil =>
          simp only [Master.serve, hp, Option.some.injEq, Prod.mk.injEq] at hm
          obtain ⟨rfl, rfl⟩ := hm
          exact h.leave hp
      | cons key todo =>
          simp only [Master.serve, hp, Option.some.injEq, Prod.mk.injEq] at hm
          obtain ⟨rfl, rfl⟩ := hm
          exact h.read hp rfl
  | live current =>
      simp only [Master.serve, hp] at hm
      exact h.forward hp hm

theorem Inv.step (h : s.Inv first) {t : Turn} (ha : s.Ahead t = true) (hs : s.step t = some s') : s'.Inv first := by
  cases t with
  | tick t => exact h.tick hs
  | write name op => exact h.write ha hs
  | connect => exact h.connect hs
  | serve readable => exact h.serve ha hs
  | follow => exact h.follow hs
  | ack => exact h.ack hs

theorem Start.inv (h : s.Start) : s.Inv s.master.node.disk := by
  refine ⟨?_, fun n => ?_, fun n hn => ?_, fun _ => ⟨h.queue, h.net, h.acks, h.acked⟩, fun hp => ?_, fun cur hp => ?_⟩
  · rw [h.seq, h.log]
    rfl
  · rw [h.log]
    rfl
  · rw [h.opened] at hn
    obtain rfl := List.mem_singleton.mp hn
    exact .inr (by simp [Node.knows])
  · rw [h.phase] at hp
    cases hp
  · rw [h.phase] at hp
    cases hp

/-- As long as the writes made during the snapshot are ahead of it, what the
replica has acknowledged is applied. -/
theorem acked_means_applied (s₀ s : Link) (ts : List Turn) (h₀ : s₀.Start) (hr : Runs.run step s₀ ts = some s)
    (ha : Runs.Along step (fun s t => s.Ahead t = true) s₀ ts) (n : Nat) (hpos : 1 ≤ n) (hn : n ≤ s.master.acked) :
    s.Reflects s₀.master.node.disk n := by
  have h : s.Inv s₀.master.node.disk := Runs.invariant (fun hi hp hs => hi.step hp hs) h₀.inv ha hr
  cases hp : s.master.phase with
  | live current =>
      obtain ⟨c, window, hl⟩ := h.live current hp
      obtain ⟨q, hq, hle, hg⟩ := hl.every [] s.net s.replica rfl rfl s.master.acked List.mem_cons_self (by omega)
      exact ⟨q, by omega, hle, hg⟩
  | away =>
      have := (h.away hp).2.2.2
      omega
  | begin_ | listing | spaces | entered | keys =>
      have := (h.window (by rw [hp]; rfl)).quiet.2.1
      omega

end

end Link

end

namespace Link

open Reference

local instance ackedCodec : Codec := codec []

def bare : Node := ⟨[], by simp, fun _ => none⟩

/-- A master and a replica without data. -/
def fresh : Link := ⟨⟨bare, [defaultName], 0, [], 0, .away, []⟩, [], ⟨bare, defaultName⟩, [], 0, []⟩

theorem fresh_start : fresh.Start := ⟨rfl, rfl, rfl, rfl, rfl, rfl, rfl, rfl, rfl⟩

def setA : Turn := .write defaultName (.set "a" .string (Lib.Utf8.asBytes "v") .json 5 0 true)

/-- The key is written before the snapshot reads it. -/
def ahead : List Turn :=
  [.connect, setA] ++ List.replicate 10 (.serve true) ++ List.replicate 8 .follow ++ [.ack]

theorem ahead_runs : (Runs.run step fresh ahead).isSome := by decide

theorem acked_means_applied_sample :
    ∃ s, Runs.run step fresh ahead = some s ∧ s.master.acked = 1 ∧ s.Reflects fresh.master.node.disk 1 := by
  have hrun := (Option.some_get ahead_runs).symm
  refine ⟨_, hrun, by decide, ?_⟩
  exact acked_means_applied fresh _ ahead fresh_start hrun (by decide) 1 (by decide) (by decide)

/-- The key is written after the snapshot has read its workspace. -/
def behind : List Turn :=
  [.connect] ++ List.replicate 5 (.serve true) ++ [setA] ++ List.replicate 4 (.serve true) ++ List.replicate 7 .follow ++
    [.ack]

theorem behind_runs : (Runs.run step fresh behind).isSome := by decide

theorem acked_before_applied :
    ∃ s, Runs.run step fresh behind = some s ∧ s.log.length = 1 ∧ s.master.acked = 1 ∧
      (s.replica.node.disk.store defaultName)["a"]? = none ∧ ¬ s.Reflects fresh.master.node.disk 1 := by
  have hrun := (Option.some_get behind_runs).symm
  have hlen : ((Runs.run step fresh behind).get behind_runs).log.length = 1 := by decide
  have hnone : (((Runs.run step fresh behind).get behind_runs).replica.node.disk.store defaultName)["a"]? = none := by
    decide
  refine ⟨_, hrun, hlen, by decide, hnone, ?_⟩
  rintro ⟨q, hq, hle, hg⟩
  obtain rfl : q = 1 := by omega
  have hshows := hg defaultName (.inr (by decide)) "a"
  rw [hnone] at hshows
  rcases hshows with hshows | ⟨-, it, hit, hex⟩
  · exact absurd hshows (by decide)
  · have hfalse : ((diskAt fresh.master.node.disk ((Runs.run step fresh behind).get behind_runs).log 1).store
        defaultName)["a"]?.all (fun it => !it.isExpired ((Runs.run step fresh behind).get behind_runs).now) = true := by
      decide
    rw [hit] at hfalse
    simp [hex] at hfalse

end Link

end KivaDb.Repl
