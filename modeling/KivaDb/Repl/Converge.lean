import KivaDb.Repl.Spaces

namespace KivaDb.Repl

open Lib Format

/-- What a message leaves under the key `k` of the engine `n`, if it is about it. -/
def Msg.leaves (n k : String) : Msg → Option (Option Item)
  | .op _ name o => if name = n ∧ Op.touches o k = true then some (Op.leaves o) else none
  | .workspace .. => none

/-- What the last message about the key leaves. -/
def pending (n k : String) : List Msg → Option (Option Item)
  | [] => none
  | msg :: queue => (pending n k queue).or (msg.leaves n k)

theorem pending_snoc (n k : String) (queue : List Msg) (msg : Msg) :
    pending n k (queue ++ [msg]) = (msg.leaves n k).or (pending n k queue) := by
  induction queue with
  | nil => simp [pending]
  | cons m queue ih => rw [List.cons_append, pending, ih, pending, Option.or_assoc]

theorem pending_of_not_on {n k : String} {queue : List Msg} (h : queue.any (Msg.isOn n) = false) :
    pending n k queue = none := by
  induction queue with
  | nil => rfl
  | cons msg queue ih =>
      rw [List.any_cons, Bool.or_eq_false_iff] at h
      rw [pending, ih h.2, Option.none_or]
      cases msg with
      | workspace name removed => rfl
      | op seq name o =>
          have hne : ¬ name = n := by simpa [Msg.isOn] using h.1
          simp [Msg.leaves, hne]

theorem mem_of_pending {n k : String} {queue : List Msg} {v : Option Item} (h : pending n k queue = some v) :
    ∃ seq o, Msg.op seq n o ∈ queue := by
  have hany : queue.any (Msg.isOn n) = true := by
    by_contra hno
    rw [pending_of_not_on (by simpa using hno)] at h
    cases h
  obtain ⟨msg, hmem, hon⟩ := List.any_eq_true.mp hany
  cases msg with
  | workspace name removed => cases hon
  | op seq name o =>
      obtain rfl : name = n := by simpa [Msg.isOn] using hon
      exact ⟨seq, o, hmem⟩

/-- The snapshot has read the key, or is over. -/
def Phase.done : Phase → String → String → Bool
  | .live _, _, _ => true
  | p, n, k => p.passed n (some k)

/-- The engine the snapshot is in. -/
def Phase.at? : Phase → Option String
  | .entered name _ | .keys name _ _ => some name
  | _ => none

theorem Phase.not_done {p : Phase} (hl : p.left = none) (n k : String) : p.done n k = false := by
  cases p with
  | away | begin_ | listing => rfl
  | spaces | entered | keys | live => cases hl

theorem Phase.not_done_of_left {p : Phase} {rest : List String} {n k : String} (hl : p.left = some rest) (hn : n ∈ rest)
    (ha : p.at? ≠ some n) : p.done n k = false := by
  cases p with
  | away | begin_ | listing => rfl
  | spaces list =>
      obtain rfl := Option.some.inj hl
      simp [Phase.done, Phase.passed, hn]
  | entered name list =>
      obtain rfl := Option.some.inj hl
      simp [Phase.done, Phase.passed, hn]
  | keys name todo list =>
      obtain rfl := Option.some.inj hl
      have hne : n ≠ name := fun h => ha (congrArg some h.symm)
      simp [Phase.done, Phase.passed, hne, hn]
  | live current =>
      obtain rfl := Option.some.inj hl
      cases hn

theorem Op.settles_mono {now now' : Int64} {o : Op} (ht : now ≤ now') (h : Op.settles now o = true) :
    Op.settles now' o = true := by
  cases o with
  | set key ty raw enc timestamp expiresAt created =>
      simp only [Op.settles, decide_eq_true_eq] at h ⊢
      exact h.imp id fun h => Int64.le_trans h ht
  | del | reset => rfl

section

variable [Chrono] [Codec]

/-- A value read from an item and stored again is read again, with the same
type. -/
def Stable : Prop :=
  ∀ ty raw enc v msgpack raw' enc', Codec.decode ty raw enc = .ok v → Codec.encodeStored v msgpack = .ok (raw', enc') →
    v.ty = ty ∧ Codec.decode ty raw' enc' = .ok v

/-- What a reader sees of an item at `t`: its type, its value, its timestamp and
its deadline. -/
def view (t : Int64) (it : Option Item) : Option (Ty × Result Value × Int64 × Int64) :=
  (it.filter fun it => !it.isExpired t).map fun it => (it.ty, Codec.decode it.ty it.raw it.enc, it.timestamp, it.expiresAt)

/-- From now on a reader sees the same. -/
def Mirrors (now : Int64) (held shown : Option Item) : Prop := ∀ t, now ≤ t → view t held = view t shown

theorem Mirrors.refl {now : Int64} {it : Option Item} : Mirrors now it it := fun _ _ => rfl

theorem Mirrors.later {now now' : Int64} {held shown : Option Item} (ht : now ≤ now') (h : Mirrors now held shown) :
    Mirrors now' held shown := fun t h' => h t (Int64.le_trans ht h')

theorem view_expired {t : Int64} {it : Item} (h : it.isExpired t = true) : view t (some it) = none := by
  simp [view, h]

theorem Mirrors.gone {now : Int64} {it : Item} (h : it.isExpired now = true) : Mirrors now (some it) none := by
  intro t ht
  exact view_expired (it.isExpired_mono ht h)

theorem putRaw_ok {k : String} {it it' : Item} (h : putRaw k it = .ok it') :
    ∃ v msgpack raw enc, Codec.decode it.ty it.raw it.enc = .ok v ∧ Codec.encodeStored v msgpack = .ok (raw, enc) ∧
      it' = ⟨v.ty, raw, enc, it.timestamp, it.expiresAt⟩ := by
  rw [putRaw] at h
  obtain ⟨v, hdec, h⟩ := Fallible.except_bind_ok.mp h
  obtain ⟨u, -, h⟩ := Fallible.except_bind_ok.mp h
  obtain ⟨⟨raw, enc⟩, henc, h⟩ := Fallible.except_bind_ok.mp h
  simp only at h
  split at h
  · cases h
  · cases h
    exact ⟨v, _, raw, enc, hdec, henc, rfl⟩

theorem Mirrors.recoded (hst : Stable) {now : Int64} {it it' : Item} {k : String} (hs : Settles now it.expiresAt)
    (hr : recode k it = some it') : Mirrors now (some it) (some it') := by
  rw [recode] at hr
  cases hput : putRaw k { it with expiresAt := expiryToMs it.expiresAt } with
  | error e =>
      rw [hput] at hr
      cases hr
  | ok item =>
      rw [hput] at hr
      obtain rfl : item = it' := Option.some.inj hr
      obtain ⟨v, msgpack, raw, enc, hdec, henc, rfl⟩ := putRaw_ok hput
      obtain ⟨hty, hback⟩ := hst _ _ _ _ _ _ _ hdec henc
      have hdec : Codec.decode it.ty it.raw it.enc = .ok v := hdec
      intro t ht
      rcases expiryToMs_cases it.expiresAt with heq | ⟨hpos, hlt⟩
      · have hexp : Item.isExpired ⟨v.ty, raw, enc, it.timestamp, it.expiresAt⟩ t = it.isExpired t := rfl
        simp only [view, heq, Option.filter_some, hexp]
        split
        · simp only [Option.map_some, hty, hback, hdec]
        · rfl
      · have hle : expiryToMs it.expiresAt ≤ t := by
          rcases hs with hs | hs
          · rw [hs] at hlt
            exact (Int64.lt_irrefl hlt).elim
          · exact Int64.le_trans hs ht
        have hexp : it.isExpired t = true := by
          simp [Item.isExpired, hpos, Int64.le_trans (Int64.le_of_lt hlt) hle]
        have hexp' : Item.isExpired ⟨v.ty, raw, enc, it.timestamp, expiryToMs it.expiresAt⟩ t = true := by
          simp [Item.isExpired, Int64.lt_trans hpos hlt, hle]
        exact (view_expired hexp).trans (view_expired hexp').symm

theorem recode_of_follow {r r' : Replica} {seq : Nat} {k : String} {it : Item} {a : Option Nat}
    (h : follow r (.set seq k it) = .ok (r', a)) : ∃ it', recode k it = some it' := by
  simp only [follow] at h
  obtain ⟨it', hp, -⟩ := Fallible.except_bind_ok.mp h
  refine ⟨it', ?_⟩
  rw [recode, hp]
  rfl

/-- What an operation leaves on the master it leaves on the replica. -/
theorem Mirrors.frame (hst : Stable) {now : Int64} {r r' : Replica} {seq : Nat} {o : Op} {a : Option Nat} {k : String}
    (h : follow r (Op.frame seq o) = .ok (r', a)) (hs : Op.settles now o = true) (ht : Op.touches o k = true) :
    Mirrors now (Op.leaves o) ((Op.leaves o).bind (recode k)) := by
  cases o with
  | set key ty raw enc timestamp expiresAt created =>
      obtain rfl : key = k := by simpa [Op.touches, Op.key?] using ht
      obtain ⟨it', hre⟩ := recode_of_follow h
      rw [Op.leaves, Option.bind_some, hre]
      exact Mirrors.recoded hst (by simpa [Op.settles] using hs) hre
  | del | reset => exact Mirrors.refl

/-- Frames that change nothing in an engine. -/
theorem arrives_untouched {n : String} {fs : List Frame} {r r' : Replica} (h : untouched n r.engine fs = true)
    (hr : arrives r fs = some r') (k : String) : (r'.node.disk.store n)[k]? = (r.node.disk.store n)[k]? := by
  induction fs generalizing r with
  | nil =>
      obtain rfl := Option.some.inj hr
      rfl
  | cons f fs ih =>
      rw [untouched, Bool.and_eq_true] at h
      rw [arrives] at hr
      cases hf : follow r f with
      | error e => simp [hf] at hr
      | ok p =>
          obtain ⟨q, a⟩ := p
          obtain ⟨hstore, heng, -⟩ := follow_ok hf
          simp only [hf] at hr
          rw [ih (heng ▸ h.2) hr, hstore]
          cases f with
          | snapBegin =>
              have hne : n ≠ defaultName := by simpa [Frame.spares] using h.1
              simp [Frame.leaves, hne]
          | set | del | reset =>
              have hne : n ≠ r.engine := by simpa [Frame.spares] using h.1
              simp [Frame.leaves, hne]
          | workspaces | use | wsRemove | snapEnd => rfl

namespace Flow

/-- What the stream has brought to the replica. -/
structure Carries (f : Flow) : Prop where
  away : f.link.master.phase = .away → f.link.master.queue = [] ∧ f.link.net = []
  queued : ∀ seq n op, Msg.op seq n op ∈ f.link.master.queue →
    n ∈ f.link.master.opened ∧ Op.settles f.link.now op = true
  entered : ∀ n, f.link.master.phase.at? = some n → n ∈ f.link.master.opened
  last : ∀ n k v, pending n k f.link.master.queue = some v → (f.link.master.node.disk.store n)[k]? = v
  covered : ∀ rest, f.link.master.phase.left = some rest → ∀ n, f.link.covers n → n ∈ f.carried ∨ n ∈ rest
  again : ∀ rest, f.link.master.phase.left = some rest → ∀ n ∈ f.carried, n ∈ rest → n ∈ f.link.master.opened
  unread : f.link.master.phase.left = none → f.carried = []
  ends : f.link.master.phase.Ends
  inside : ∀ r, arrives f.link.replica f.link.net = some r → Phase.Inside r f.link.master.phase
  engine : ∀ r, arrives f.link.replica f.link.net = some r → ∀ current, f.link.master.phase = .live current →
    r.engine = current
  shown : ∀ r, arrives f.link.replica f.link.net = some r → ∀ n ∈ f.carried, ∀ k,
    f.link.master.phase.done n k = true → pending n k f.link.master.queue = none →
    Mirrors f.link.now (f.link.master.node.disk.store n)[k]? (r.node.disk.store n)[k]?

variable {f : Flow}

/-- What stays when only the clock, the acknowledgements and the frames on their
way move. -/
theorem Carries.unmoved (h : f.Carries) {s : Link} (hm : s.master.node = f.link.master.node)
    (hopened : s.master.opened = f.link.master.opened) (hqueue : s.master.queue = f.link.master.queue)
    (hphase : s.master.phase = f.link.master.phase) (hnow : f.link.now ≤ s.now)
    (hnet : f.link.net = [] → s.net = [])
    (harr : ∀ r, arrives s.replica s.net = some r → arrives f.link.replica f.link.net = some r) :
    Carries ⟨s, f.carried⟩ := by
  refine ⟨fun hp => ?_, fun seq n op hop => ?_, fun n hn => ?_, fun n k v hv => ?_, fun rest hl n hn => ?_,
    fun rest hl n hn hmem => ?_, fun hl => ?_, ?_, fun r hr => ?_, fun r hr cur hp => ?_, fun r hr n hn k hd hpe => ?_⟩
  · obtain ⟨hq, hn⟩ := h.away (hphase ▸ hp)
    exact ⟨hqueue.trans hq, hnet hn⟩
  · obtain ⟨ho, hs⟩ := h.queued seq n op (hqueue ▸ hop)
    exact ⟨hopened ▸ ho, Op.settles_mono hnow hs⟩
  · exact hopened ▸ h.entered n (hphase ▸ hn)
  · rw [hm]
    exact h.last n k v (hqueue ▸ hv)
  · rw [Link.covers, hm] at hn
    exact h.covered rest (hphase ▸ hl) n hn
  · exact hopened ▸ h.again rest (hphase ▸ hl) n hn hmem
  · exact h.unread (hphase ▸ hl)
  · rw [hphase]
    exact h.ends
  · rw [hphase]
    exact h.inside r (harr r hr)
  · exact h.engine r (harr r hr) cur (hphase ▸ hp)
  · rw [hm]
    exact (h.shown r (harr r hr) n hn k (hphase ▸ hd) (hqueue ▸ hpe)).later hnow

theorem Carries.follow (h : f.Carries) {s : Link} (hs : f.link.step .follow = some s) : Carries ⟨s, f.carried⟩ := by
  simp only [Link.step] at hs
  split at hs
  · cases hs
  · rename_i g net hnet
    split at hs
    · rename_i r a hf
      cases hs
      refine h.unmoved rfl rfl rfl rfl (Int64.le_refl _) (fun hnil => ?_) (fun q hq => ?_)
      · rw [hnet] at hnil
        cases hnil
      · rw [hnet, arrives_cons hf]
        exact hq
    · cases hs

omit [Chrono] [Codec] in
theorem mem_openEngine {m : Master} {name n : String} (h : n ∈ m.opened ∨ n = name) : n ∈ (m.openEngine name).opened := by
  simp only [Master.openEngine]
  split
  · rename_i hc
    rcases h with h | rfl
    · exact h
    · exact List.contains_iff_mem.mp hc
  · rcases h with h | rfl
    · exact List.mem_append_left _ h
    · exact List.mem_append_right _ List.mem_cons_self

theorem Carries.write (h : f.Carries) {name : String} {op : Op} {s : Link}
    (hc : f.link.master.connected = true → Op.settles f.link.now op = true)
    (hs : f.link.step (.write name op) = some s) : Carries ⟨s, f.carried⟩ := by
  simp only [Link.step, Option.map_eq_some_iff] at hs
  obtain ⟨m', hm, rfl⟩ := hs
  have hw := Master.write_some hm
  have hopened : ∀ n, n ∈ f.link.master.opened ∨ n = name → n ∈ m'.opened := by
    intro n hn
    rw [hw.opened]
    exact mem_openEngine hn
  have hstore : ∀ n k : String, (m'.node.disk.store n)[k]? =
      if n = name ∧ Op.touches op k = true then Op.leaves op else (f.link.master.node.disk.store n)[k]? := by
    intro n k
    rw [hw.store]
    by_cases hn : n = name
    · rw [if_pos hn, Store.getElem?_apply]
      simp [hn]
    · rw [if_neg hn, if_neg fun h => hn h.1]
  refine ⟨fun hp => ?_, fun seq n o ho => ?_, fun n hn => ?_, fun n k v hv => ?_, fun rest hl n hn => ?_,
    fun rest hl n hn hmem => ?_, fun hl => ?_, ?_, fun r hr => ?_, fun r hr cur hp => ?_, fun r hr n hn k hd hpe => ?_⟩
  · rw [hw.phase] at hp
    have hnot : f.link.master.connected = false := by rw [Master.connected, hp]
    obtain ⟨hq, hn⟩ := h.away hp
    exact ⟨by rw [hw.queue, hnot]; exact hq, hn⟩
  · rw [hw.queue] at ho
    split at ho
    · rename_i hconn
      rcases List.mem_append.mp ho with ho | ho
      · obtain ⟨hopen, hset⟩ := h.queued seq n o ho
        exact ⟨hopened n (.inl hopen), hset⟩
      · obtain ⟨-, rfl, rfl⟩ : seq = f.link.master.seq + 1 ∧ n = name ∧ o = op := by simpa using ho
        exact ⟨hopened n (.inr rfl), hc hconn⟩
    · obtain ⟨hopen, hset⟩ := h.queued seq n o ho
      exact ⟨hopened n (.inl hopen), hset⟩
  · rw [hw.phase] at hn
    exact hopened n (.inl (h.entered n hn))
  · rw [hstore]
    rw [hw.queue] at hv
    split at hv
    · rw [pending_snoc, Msg.leaves] at hv
      by_cases ht : name = n ∧ Op.touches op k = true
      · rw [if_pos ht, Option.some_or] at hv
        rw [if_pos ⟨ht.1.symm, ht.2⟩]
        exact Option.some.inj hv
      · rw [if_neg ht, Option.none_or] at hv
        rw [if_neg fun h => ht ⟨h.1.symm, h.2⟩]
        exact h.last n k v hv
    · rename_i hconn
      have hp := Master.phase_of_not_connected hconn
      rw [(h.away hp).1] at hv
      cases hv
  · rw [hw.phase] at hl
    rw [Link.covers, Node.knows, hw.spaces] at hn
    exact h.covered rest hl n hn
  · rw [hw.phase] at hl
    exact hopened n (.inl (h.again rest hl n hn hmem))
  · rw [hw.phase] at hl
    exact h.unread hl
  · rw [hw.phase]
    exact h.ends
  · rw [hw.phase]
    exact h.inside r hr
  · rw [hw.phase] at hp
    exact h.engine r hr cur hp
  · rw [hw.phase] at hd
    rw [hw.queue] at hpe
    split at hpe
    · rw [pending_snoc, Option.or_eq_none_iff, Msg.leaves] at hpe
      have hnot : ¬ (n = name ∧ Op.touches op k = true) := by
        rintro ⟨rfl, ht⟩
        simp [ht] at hpe
      rw [hstore, if_neg hnot]
      exact h.shown r hr n hn k hd hpe.2
    · rename_i hconn
      have hp := Master.phase_of_not_connected hconn
      rw [hp] at hd
      cases hd

/-- The snapshot goes on, with frames that leave on the replica what the next
phase says. -/
theorem Carries.goesOn (h : f.Carries) {m : Master} {fs : List Frame} {carried : List String}
    (hstore : ∀ n, m.node.disk.store n = f.link.master.node.disk.store n)
    (hspaces : m.node.spaces = f.link.master.node.spaces) (hqueue : m.queue = f.link.master.queue)
    (hopened : ∀ n ∈ f.link.master.opened, n ∈ m.opened) (haway : m.phase ≠ .away)
    (hat : ∀ n, m.phase.at? = some n → n ∈ m.opened)
    (hcov : ∀ rest, m.phase.left = some rest → ∀ n, f.link.covers n → n ∈ carried ∨ n ∈ rest)
    (hagain : ∀ rest, m.phase.left = some rest → ∀ n ∈ carried, n ∈ rest → n ∈ m.opened)
    (hunread : m.phase.left = none → carried = []) (hends : m.phase.Ends)
    (hnext : ∀ r, arrives f.link.replica f.link.net = some r → ∀ r', arrives r fs = some r' →
      Phase.Inside r' m.phase ∧ (∀ current, m.phase = .live current → r'.engine = current) ∧
      ∀ n ∈ carried, ∀ k, m.phase.done n k = true → pending n k f.link.master.queue = none →
        Mirrors f.link.now (f.link.master.node.disk.store n)[k]? (r'.node.disk.store n)[k]?) :
    Carries ⟨{ f.link with master := m, net := f.link.net ++ fs }, carried⟩ := by
  refine ⟨fun hp => absurd hp haway, fun seq n op hop => ?_, hat, fun n k v hv => ?_, fun rest hl n hn => ?_, hagain,
    hunread, hends, fun r hr => ?_, fun r hr cur hp => ?_, fun r hr n hn k hd hpe => ?_⟩
  · obtain ⟨ho, hs⟩ := h.queued seq n op (hqueue ▸ hop)
    exact ⟨hopened n ho, hs⟩
  · rw [hstore]
    exact h.last n k v (hqueue ▸ hv)
  · rw [Link.covers, Node.knows, hspaces] at hn
    exact hcov rest hl n hn
  · obtain ⟨q, hq, hgot⟩ := arrives_append.mp hr
    exact (hnext q hq r hgot).1
  · obtain ⟨q, hq, hgot⟩ := arrives_append.mp hr
    exact (hnext q hq r hgot).2.1 cur hp
  · obtain ⟨q, hq, hgot⟩ := arrives_append.mp hr
    rw [hstore]
    exact (hnext q hq r hgot).2.2 n hn k hd (hqueue ▸ hpe)

theorem Carries.enter (h : f.Carries) {name : String} {rest : List String}
    (hp : f.link.master.phase = .spaces (name :: rest)) :
    Carries ⟨{ f.link with
      master := { f.link.master.openEngine name with phase := .entered name rest }
      net := f.link.net ++ [.use name, .reset 0] }, f.carried ++ [name]⟩ := by
  refine h.goesOn (fun n => Disk.store_opened _ _ _) rfl rfl (fun n hn => mem_openEngine (.inl hn)) (by simp)
    (fun n hn => mem_openEngine (.inr (Option.some.inj hn).symm)) ?_ ?_ (fun hl => by simp [Phase.left] at hl) ?_ ?_
  · rintro list hl n hn
    obtain rfl : rest = list := Option.some.inj hl
    rcases h.covered (name :: rest) (by rw [hp]; rfl) n hn with hmem | hmem
    · exact .inl (List.mem_append_left _ hmem)
    · rcases List.mem_cons.mp hmem with rfl | hmem
      · exact .inl (List.mem_append_right _ List.mem_cons_self)
      · exact .inr hmem
  · intro list hl n hn hmem
    obtain rfl : rest = list := Option.some.inj hl
    rcases List.mem_append.mp hn with hn | hn
    · exact mem_openEngine (.inl (h.again (name :: rest) (by rw [hp]; rfl) n hn (List.mem_cons_of_mem _ hmem)))
    · exact mem_openEngine (.inr (List.mem_singleton.mp hn))
  · have hends := h.ends
    rw [hp] at hends
    exact hends (by simp)
  · intro r hr r' hr'
    obtain ⟨heng, hstore⟩ := Link.arrives_enter hr'
    refine ⟨⟨heng, fun k => by rw [hstore, if_pos rfl]⟩, fun cur hcur => by simp at hcur, fun n hn k hd hpe => ?_⟩
    simp only [Phase.done, Phase.passed, ne_eq, Bool.and_eq_true, decide_eq_true_eq, Bool.not_eq_true',
      List.contains_eq_mem, decide_eq_false_iff_not] at hd
    have hn' : n ∈ f.carried := by
      rcases List.mem_append.mp hn with hn | hn
      · exact hn
      · exact absurd (List.mem_singleton.mp hn) hd.1
    rw [hstore, if_neg hd.1]
    refine h.shown r hr n hn' k ?_ hpe
    rw [hp]
    simp [Phase.done, Phase.passed, hd]

theorem Carries.skip (h : f.Carries) {name : String} {rest : List String}
    (hp : f.link.master.phase = .spaces (name :: rest)) (hr : f.link.master.reaches name = false) :
    Carries ⟨{ f.link with master := { f.link.master with phase := .spaces rest }, net := f.link.net ++ [] },
      f.carried⟩ := by
  have hends := h.ends
  rw [hp] at hends
  have hne : rest ≠ [] := by
    rintro rfl
    obtain rfl : name = systemName := by simpa using hends (by simp)
    simp [Master.reaches] at hr
  refine h.goesOn (fun n => rfl) rfl rfl (fun n hn => hn) (by simp) (fun n hn => by simp [Phase.at?] at hn) ?_ ?_
    (fun hl => by simp [Phase.left] at hl) ?_ ?_
  · intro list hl n hn
    obtain rfl : rest = list := Option.some.inj hl
    rcases h.covered (name :: rest) (by rw [hp]; rfl) n hn with hmem | hmem
    · exact .inl hmem
    · rcases List.mem_cons.mp hmem with rfl | hmem
      · simp only [Master.reaches, Bool.or_eq_false_iff, decide_eq_false_iff_not] at hr
        rcases hn with rfl | hn
        · exact absurd rfl hr.1.1
        · rw [hr.2] at hn
          cases hn
      · exact .inr hmem
  · intro list hl n hn hmem
    obtain rfl : rest = list := Option.some.inj hl
    exact h.again (name :: rest) (by rw [hp]; rfl) n hn (List.mem_cons_of_mem _ hmem)
  · intro _
    rw [← hends (by simp)]
    cases rest with
    | nil => exact absurd rfl hne
    | cons n rest => rfl
  · intro r hr' r' hr''
    obtain rfl := Link.arrives_nil hr''
    refine ⟨fun hnil => absurd hnil hne, fun cur hcur => by simp at hcur, fun n hn k hd hpe => ?_⟩
    have hne' : n ≠ name := by
      rintro rfl
      have hopen := h.again (n :: rest) (by rw [hp]; rfl) n hn List.mem_cons_self
      simp [Master.reaches, hopen] at hr
    refine h.shown r' hr' n hn k ?_ hpe
    rw [hp]
    simpa [Phase.done, Phase.passed, hne'] using hd

/-- The phases that follow one another with the same workspaces to read. -/
theorem Carries.same_left (h : f.Carries) {p : Phase} {rest : List String} (hl : f.link.master.phase.left = some rest)
    (hl' : p.left = some rest) {fs : List Frame} (hat : ∀ n, p.at? = some n → f.link.master.phase.at? = some n)
    (hends : p.Ends)
    (hnext : ∀ r, arrives f.link.replica f.link.net = some r → ∀ r', arrives r fs = some r' →
      Phase.Inside r' p ∧ (∀ current, p = .live current → r'.engine = current) ∧
      ∀ n ∈ f.carried, ∀ k, p.done n k = true → pending n k f.link.master.queue = none →
        Mirrors f.link.now (f.link.master.node.disk.store n)[k]? (r'.node.disk.store n)[k]?) :
    Carries ⟨{ f.link with master := { f.link.master with phase := p }, net := f.link.net ++ fs }, f.carried⟩ := by
  refine h.goesOn (fun n => rfl) rfl rfl (fun n hn => hn) ?_ (fun n hn => h.entered n (hat n hn)) ?_ ?_ ?_ hends hnext
  · rintro rfl
    cases hl'
  · intro list hlist n hn
    obtain rfl : rest = list := Option.some.inj (hl'.symm.trans hlist)
    exact h.covered rest hl n hn
  · intro list hlist n hn hmem
    obtain rfl : rest = list := Option.some.inj (hl'.symm.trans hlist)
    exact h.again rest hl n hn hmem
  · intro hnone
    have hnone : p.left = none := hnone
    rw [hl'] at hnone
    cases hnone

theorem Carries.list (h : f.Carries) {name : String} {rest : List String}
    (hp : f.link.master.phase = .entered name rest) :
    Carries ⟨{ f.link with
      master := { f.link.master with
        phase := .keys name ((f.link.master.node.disk.store name).range f.link.now) rest }
      net := f.link.net ++ [] }, f.carried⟩ := by
  have hends := h.ends
  rw [hp] at hends
  refine h.same_left (by rw [hp]; rfl) rfl (fun n hn => by rw [hp]; exact hn)
    ⟨hends, Store.nodup_range _ _⟩ ?_
  intro r hr r' hr'
  obtain rfl := Link.arrives_nil hr'
  have hin := h.inside r' hr
  rw [hp] at hin
  refine ⟨⟨hin.1, fun k _ => hin.2 k⟩, fun cur hcur => by simp at hcur, fun n hn k hd hpe => ?_⟩
  simp only [Phase.done, Phase.passed] at hd
  split at hd
  · rename_i heq
    subst heq
    rw [hin.2]
    cases hm : (f.link.master.node.disk.store n)[k]? with
    | none => exact Mirrors.refl
    | some it =>
        refine Mirrors.gone ?_
        by_contra hex
        have hmem : k ∈ (f.link.master.node.disk.store n).range f.link.now :=
          Store.mem_range.mpr ⟨it, hm, by simpa using hex⟩
        simp [hmem] at hd
  · rename_i hne
    refine h.shown r' hr n hn k ?_ hpe
    rw [hp]
    simpa [Phase.done, Phase.passed, hne] using hd

theorem Carries.leave (h : f.Carries) {name : String} {rest : List String}
    (hp : f.link.master.phase = .keys name [] rest) :
    Carries ⟨{ f.link with master := { f.link.master with phase := .spaces rest }, net := f.link.net ++ [] },
      f.carried⟩ := by
  have hends := h.ends
  rw [hp] at hends
  refine h.same_left (by rw [hp]; rfl) rfl (fun n hn => by simp [Phase.at?] at hn) ?_ ?_
  · intro hne
    rw [← hends.1]
    cases rest with
    | nil => exact absurd rfl hne
    | cons n rest => rfl
  · intro r hr r' hr'
    obtain rfl := Link.arrives_nil hr'
    have hin := h.inside r' hr
    rw [hp] at hin
    refine ⟨fun hnil => ?_, fun cur hcur => by simp at hcur, fun n hn k hd hpe => h.shown r' hr n hn k ?_ hpe⟩
    · subst hnil
      exact hin.1.trans (by simpa using hends.1)
    · rw [hp]
      simp only [Phase.done, Phase.passed] at hd ⊢
      split
      · simp
      · exact hd

theorem Carries.finish (h : f.Carries) (hp : f.link.master.phase = .spaces []) :
    Carries ⟨{ f.link with
      master := { f.link.master with phase := .live systemName }
      net := f.link.net ++ [.snapEnd f.link.master.seq] }, f.carried⟩ := by
  refine h.same_left (by rw [hp]; rfl) rfl (fun n hn => by simp [Phase.at?] at hn) trivial ?_
  intro r hr r' hr'
  obtain ⟨a, ha⟩ := arrives_one.mp hr'
  obtain ⟨hs1, he1, -⟩ := follow_ok ha
  have hin := h.inside r hr
  rw [hp] at hin
  refine ⟨trivial, fun cur hcur => ?_, fun n hn k _ hpe => ?_⟩
  · obtain rfl : systemName = cur := by simpa using hcur
    exact he1.trans (hin rfl)
  · rw [hs1]
    exact h.shown r hr n hn k (by rw [hp]; rfl) hpe

theorem Carries.read (hst : Stable) (h : f.Carries) {name key : String} {todo rest : List String} {readable : Bool}
    (hp : f.link.master.phase = .keys name (key :: todo) rest) (hc : f.link.readsWell readable = true) {fs : List Frame}
    (hfs : fs = match (f.link.master.node.disk.store name).liveAt key f.link.now with
      | some item => if readable then [.set 0 key item] else []
      | none => []) :
    Carries ⟨{ f.link with master := { f.link.master with phase := .keys name todo rest }, net := f.link.net ++ fs },
      f.carried⟩ := by
  have hends := h.ends
  rw [hp] at hends
  obtain ⟨hlast, hnodup⟩ := hends
  obtain ⟨hkey, hnodup⟩ := List.nodup_cons.mp hnodup
  refine h.same_left (by rw [hp]; rfl) rfl (fun n hn => by rw [hp]; exact hn) ⟨hlast, hnodup⟩ ?_
  intro r hr r' hr'
  have hin := h.inside r hr
  rw [hp] at hin
  obtain ⟨heng, hnone⟩ := hin
  have hold : ∀ n ∈ f.carried, ∀ k, (n = name → k ≠ key) → Phase.done (.keys name todo rest) n k = true →
      pending n k f.link.master.queue = none →
      Mirrors f.link.now (f.link.master.node.disk.store n)[k]? (r.node.disk.store n)[k]? := by
    intro n hn k hk hd hpe
    refine h.shown r hr n hn k ?_ hpe
    rw [hp]
    simp only [Phase.done, Phase.passed] at hd ⊢
    split
    · rename_i heq
      rw [if_pos heq] at hd
      simpa [hk heq] using hd
    · rename_i hne
      rw [if_neg hne] at hd
      exact hd
  cases hl : (f.link.master.node.disk.store name).liveAt key f.link.now with
  | none =>
      rw [hl] at hfs
      subst hfs
      obtain rfl := Link.arrives_nil hr'
      refine ⟨⟨heng, fun k hk => hnone k (List.mem_cons_of_mem _ hk)⟩, fun cur hcur => by simp at hcur,
        fun n hn k hd hpe => ?_⟩
      by_cases hnk : n = name ∧ k = key
      · obtain ⟨rfl, rfl⟩ := hnk
        rw [hnone k List.mem_cons_self]
        cases hm : (f.link.master.node.disk.store n)[k]? with
        | none => exact Mirrors.refl
        | some it =>
            refine Mirrors.gone ?_
            simpa [Store.liveAt, hm] using hl
      · exact hold n hn k (fun hn' hk' => hnk ⟨hn', hk'⟩) hd hpe
  | some item =>
      simp only [Link.readsWell, hp, hl, Option.all_some, Bool.and_eq_true, decide_eq_true_eq] at hc
      obtain ⟨rfl, hex⟩ := hc
      rw [hl] at hfs
      subst hfs
      obtain ⟨a, ha⟩ := arrives_one.mp hr'
      obtain ⟨hs1, he1, -⟩ := follow_ok ha
      obtain ⟨it', hre⟩ := recode_of_follow ha
      have hitem : (f.link.master.node.disk.store name)[key]? = some item := by
        rw [Store.liveAt] at hl
        exact Option.eq_some_of_filter_eq_some hl
      refine ⟨⟨he1.trans heng, fun k hk => ?_⟩, fun cur hcur => by simp at hcur, fun n hn k hd hpe => ?_⟩
      · rw [hs1, heng]
        have hne : ¬ (name = name ∧ key = k) := by
          rintro ⟨-, rfl⟩
          exact hkey hk
        show (if name = name ∧ key = k then _ else _) = none
        rw [if_neg hne]
        exact hnone k (List.mem_cons_of_mem _ hk)
      · rw [hs1, heng]
        simp only [Frame.leaves]
        by_cases hnk : n = name ∧ key = k
        · rw [if_pos hnk]
          obtain ⟨rfl, rfl⟩ := hnk
          rw [hitem, hre]
          exact Mirrors.recoded hst (.inl hex) hre
        · rw [if_neg hnk]
          exact hold n hn k (fun hn' hk' => hnk ⟨hn', hk'.symm⟩) hd hpe

/-- A message is sent on, with frames that bring what it leaves. -/
theorem Carries.sent (h : f.Carries) {current current' : String} {msg : Msg} {queue : List Msg} {fs : List Frame}
    (hp : f.link.master.phase = .live current) (hq : f.link.master.queue = msg :: queue)
    (hnext : ∀ r r', r.engine = current → arrives r fs = some r' → r'.engine = current' ∧
      ∀ n k, (msg.leaves n k = none → (r'.node.disk.store n)[k]? = (r.node.disk.store n)[k]?) ∧
        ∀ v, msg.leaves n k = some v → Mirrors f.link.now v (r'.node.disk.store n)[k]?) :
    Carries ⟨{ f.link with
      master := { f.link.master with queue, phase := .live current' }, net := f.link.net ++ fs }, f.carried⟩ := by
  refine ⟨fun hp' => by simp at hp', fun seq n op hop => ?_, fun n hn => by simp [Phase.at?] at hn, fun n k v hv => ?_,
    fun rest hl n hn => ?_, fun rest hl n hn hmem => ?_, fun hl => by simp [Phase.left] at hl, trivial, fun r hr => trivial,
    fun r hr cur hcur => ?_, fun r hr n hn k hd hpe => ?_⟩
  · refine h.queued seq n op ?_
    rw [hq]
    exact List.mem_cons_of_mem _ hop
  · refine h.last n k v ?_
    have hv : pending n k queue = some v := hv
    rw [hq, pending, hv, Option.some_or]
  · obtain rfl : [] = rest := Option.some.inj hl
    exact h.covered [] (by rw [hp]; rfl) n hn
  · obtain rfl : [] = rest := Option.some.inj hl
    cases hmem
  · obtain ⟨q, hq', hgot⟩ := arrives_append.mp hr
    obtain rfl : current' = cur := by simpa using hcur
    exact (hnext q r (h.engine q hq' current hp) hgot).1
  · obtain ⟨q, hq', hgot⟩ := arrives_append.mp hr
    obtain ⟨hsame, hleft⟩ := (hnext q r (h.engine q hq' current hp) hgot).2 n k
    have hpe : pending n k queue = none := hpe
    cases hv : msg.leaves n k with
    | none =>
        rw [hsame hv]
        refine h.shown q hq' n hn k (by rw [hp]; rfl) ?_
        rw [hq, pending, hpe, hv, Option.none_or]
    | some v =>
        have hm : (f.link.master.node.disk.store n)[k]? = v := by
          refine h.last n k v ?_
          rw [hq, pending, hpe, hv, Option.none_or]
        show Mirrors _ (f.link.master.node.disk.store n)[k]? _
        rw [hm]
        exact hleft v hv

theorem Carries.forward (hst : Stable) (h : f.Carries) {current : String} (hp : f.link.master.phase = .live current)
    {m : Master} {fs : List Frame} (hm : f.link.master.forward current = some (m, fs)) :
    Carries ⟨{ f.link with master := m, net := f.link.net ++ fs }, f.carried⟩ := by
  cases hq : f.link.master.queue with
  | nil => simp [Master.forward, hq] at hm
  | cons msg queue =>
      cases msg with
      | op seq name o =>
          simp only [Master.forward, hq, Option.some.injEq, Prod.mk.injEq] at hm
          obtain ⟨rfl, rfl⟩ := hm
          refine h.sent hp hq fun r r' heng hr => ?_
          obtain ⟨q, hu, hf⟩ := arrives_append.mp hr
          obtain ⟨b, hb⟩ := arrives_one.mp hf
          obtain ⟨hs2, he2, -⟩ := follow_ok hb
          have huse : q.engine = name ∧ ∀ n k : String, (q.node.disk.store n)[k]? = (r.node.disk.store n)[k]? := by
            split at hu
            · rename_i heq
              obtain rfl := Link.arrives_nil hu
              exact ⟨heng.trans heq.symm, fun _ _ => rfl⟩
            · obtain ⟨a, ha⟩ := arrives_one.mp hu
              obtain ⟨hs1, he1, -⟩ := follow_ok ha
              exact ⟨he1, hs1⟩
          have hset := (h.queued seq name o (by rw [hq]; exact List.mem_cons_self)).2
          refine ⟨(he2.trans (enters_frame seq o _)).trans huse.1, fun n k => ?_⟩
          rw [hs2, leaves_frame, huse.1, huse.2]
          by_cases ht : n = name ∧ Op.touches o k = true
          · rw [if_pos ht, Msg.leaves, if_pos ⟨ht.1.symm, ht.2⟩]
            refine ⟨(by rintro ⟨⟩), fun v hv => ?_⟩
            obtain rfl : Op.leaves o = v := Option.some.inj hv
            exact Mirrors.frame hst hb hset ht.2
          · rw [if_neg ht, Msg.leaves, if_neg fun h => ht ⟨h.1.symm, h.2⟩]
            exact ⟨fun _ => rfl, (by rintro _ ⟨⟩)⟩
      | workspace name removed =>
          cases removed with
          | false =>
              simp only [Master.forward, hq, Option.some.injEq, Prod.mk.injEq] at hm
              obtain ⟨rfl, rfl⟩ := hm
              refine h.sent hp hq fun r r' heng hr => ?_
              obtain ⟨a, ha⟩ := arrives_one.mp hr
              obtain ⟨hs1, he1, -⟩ := follow_ok ha
              exact ⟨he1, fun n k => ⟨fun _ => hs1 n k, (by rintro _ ⟨⟩)⟩⟩
          | true =>
              simp only [Master.forward, hq, Option.some.injEq, Prod.mk.injEq] at hm
              obtain ⟨rfl, rfl⟩ := hm
              have hnext : Carries ⟨{ f.link with
                  master := { f.link.master with queue, phase := .live current }
                  net := f.link.net ++ [.wsRemove name] }, f.carried⟩ := h.sent hp hq fun r r' heng hr => by
                obtain ⟨a, ha⟩ := arrives_one.mp hr
                obtain ⟨hs1, he1, -⟩ := follow_ok ha
                exact ⟨he1.trans heng, fun n k => ⟨fun _ => hs1 n k, (by rintro _ ⟨⟩)⟩⟩
              rw [← hp] at hnext
              exact hnext

theorem Carries.serve (hst : Stable) (h : f.Carries) {readable : Bool} (hc : f.link.readsWell readable = true) {s : Link}
    (hs : f.link.step (.serve readable) = some s) : Carries ⟨s, f.carried ++ f.link.turnsTo (.serve readable)⟩ := by
  simp only [Link.step, Option.map_eq_some_iff] at hs
  obtain ⟨⟨m, fs⟩, hm, rfl⟩ := hs
  cases hp : f.link.master.phase with
  | away => simp [Master.serve, hp] at hm
  | begin_ =>
      simp only [Master.serve, hp, Option.some.injEq, Prod.mk.injEq] at hm
      obtain ⟨rfl, rfl⟩ := hm
      rw [show f.carried ++ f.link.turnsTo (.serve readable) = f.carried by simp [Link.turnsTo, hp]]
      refine h.goesOn (fun n => rfl) rfl rfl (fun n hn => hn) (by simp) (fun n hn => by simp [Phase.at?] at hn)
        (fun rest hl => by simp [Phase.left] at hl) (fun rest hl => by simp [Phase.left] at hl)
        (fun _ => h.unread (by rw [hp]; rfl)) trivial fun r _ r' _ => ?_
      exact ⟨trivial, fun cur hcur => by simp at hcur, fun n _ k hd => by simp [Phase.done, Phase.passed] at hd⟩
  | listing =>
      simp only [Master.serve, hp, Option.some.injEq, Prod.mk.injEq] at hm
      obtain ⟨rfl, rfl⟩ := hm
      have hnil := h.unread (by rw [hp]; rfl)
      have hcar : f.carried ++ f.link.turnsTo (.serve readable) = [] := by simp [Link.turnsTo, hp, hnil]
      rw [hcar]
      refine h.goesOn (fun n => rfl) rfl rfl (fun n hn => hn) (by simp) (fun n hn => by simp [Phase.at?] at hn)
        ?_ (fun rest hl n hn => by cases hn) (fun _ => rfl) (fun _ => List.getLast?_concat) fun r _ r' _ => ?_
      · intro rest hl n hn
        obtain rfl := Option.some.inj hl
        right
        rcases hn with rfl | hn
        · simp
        · simp only [Node.knows, Bool.or_eq_true, decide_eq_true_eq, List.contains_iff_mem] at hn
          rcases hn with rfl | hn
          · simp
          · simp [hn]
      · exact ⟨by simp [Phase.Inside], fun cur hcur => by simp at hcur, fun n hn => by cases hn⟩
  | spaces rest =>
      cases rest with
      | nil =>
          simp only [Master.serve, hp, Option.some.injEq, Prod.mk.injEq] at hm
          obtain ⟨rfl, rfl⟩ := hm
          rw [show f.carried ++ f.link.turnsTo (.serve readable) = f.carried by simp [Link.turnsTo, hp]]
          exact h.finish hp
      | cons name rest =>
          simp only [Master.serve, hp] at hm
          split at hm
          · rename_i hr
            simp only [Option.some.injEq, Prod.mk.injEq] at hm
            obtain ⟨rfl, rfl⟩ := hm
            rw [show f.link.turnsTo (.serve readable) = [name] by simp [Link.turnsTo, hp, hr]]
            exact h.enter hp
          · rename_i hr
            simp only [Option.some.injEq, Prod.mk.injEq] at hm
            obtain ⟨rfl, rfl⟩ := hm
            rw [show f.carried ++ f.link.turnsTo (.serve readable) = f.carried by simp [Link.turnsTo, hp, hr]]
            exact h.skip hp (by simpa using hr)
  | entered name rest =>
      simp only [Master.serve, hp, Option.some.injEq, Prod.mk.injEq] at hm
      obtain ⟨rfl, rfl⟩ := hm
      rw [show f.carried ++ f.link.turnsTo (.serve readable) = f.carried by simp [Link.turnsTo, hp]]
      exact h.list hp
  | keys name todo rest =>
      cases todo with
      | nil =>
          simp only [Master.serve, hp, Option.some.injEq, Prod.mk.injEq] at hm
          obtain ⟨rfl, rfl⟩ := hm
          rw [show f.carried ++ f.link.turnsTo (.serve readable) = f.carried by simp [Link.turnsTo, hp]]
          exact h.leave hp
      | cons key todo =>
          simp only [Master.serve, hp, Option.some.injEq, Prod.mk.injEq] at hm
          obtain ⟨rfl, rfl⟩ := hm
          rw [show f.carried ++ f.link.turnsTo (.serve readable) = f.carried by simp [Link.turnsTo, hp]]
          exact h.read hst hp hc rfl
  | live current =>
      simp only [Master.serve, hp] at hm
      rw [show f.carried ++ f.link.turnsTo (.serve readable) = f.carried by simp [Link.turnsTo, hp]]
      exact h.forward hst hp hm

theorem Carries.turn (hst : Stable) (h : f.Carries) {t : Turn} (hc : f.Clean (.turn t) = true) {s : Link}
    (hs : f.link.step t = some s) : Carries ⟨s, f.carried ++ f.link.turnsTo t⟩ := by
  cases t with
  | tick t =>
      simp only [Link.turnsTo, List.append_nil]
      simp only [Link.step] at hs
      split at hs
      · rename_i ht
        cases hs
        exact h.unmoved rfl rfl rfl rfl ht id fun r hr => hr
      · cases hs
  | write name op =>
      simp only [Link.turnsTo, List.append_nil]
      refine h.write (fun hconn => ?_) hs
      simp only [Flow.Clean, hconn, Bool.not_true, Bool.false_or, Bool.and_eq_true] at hc
      exact hc.2
  | connect =>
      simp only [Link.turnsTo, List.append_nil]
      simp only [Link.step] at hs
      split at hs
      · rename_i hp
        cases hs
        obtain ⟨hq, hn⟩ := h.away hp
        refine ⟨fun hp' => by simp at hp', h.queued, fun n hn => by simp [Phase.at?] at hn, h.last,
          fun rest hl => by simp [Phase.left] at hl, fun rest hl => by simp [Phase.left] at hl,
          fun _ => h.unread (by rw [hp]; rfl), trivial, fun r hr => trivial, fun r hr cur hcur => by simp at hcur,
          fun r hr n hn k hd => by simp [Phase.done, Phase.passed] at hd⟩
      · cases hs
  | serve readable => exact h.serve hst hc hs
  | follow =>
      simp only [Link.turnsTo, List.append_nil]
      exact h.follow hs
  | ack =>
      simp only [Link.turnsTo, List.append_nil]
      simp only [Link.step] at hs
      split at hs
      · cases hs
      · cases hs
        exact h.unmoved rfl rfl rfl rfl (Int64.le_refl _) id fun r hr => hr

theorem Carries.remove (h : f.Carries) {m : Master} {name : String} (hm : f.link.master.removeWorkspace name = some m) :
    Carries { f with link := { f.link with master := m } } := by
  rw [Master.removeWorkspace] at hm
  split at hm
  · obtain rfl := Option.some.inj hm
    refine ⟨h.away, h.queued, h.entered, h.last, fun rest hl n hn => h.covered rest hl n ?_, h.again, h.unread, h.ends,
      h.inside, h.engine, h.shown⟩
    rcases hn with rfl | hn
    · exact .inl rfl
    · by_cases hd : n = defaultName
      · right
        rw [hd]
        exact Node.knows_default _
      · rw [Node.knows_remove _ _ _ hd, Bool.and_eq_true] at hn
        exact .inr hn.1
  · cases hm

theorem Carries.tell (h : f.Carries) {m : Master} {i : Nat} (hm : f.link.master.workspaceChanged i = some m) :
    Carries { f with link := { f.link with master := m } } := by
  rw [Master.workspaceChanged] at hm
  split at hm
  · rename_i name removed _
    obtain rfl := Option.some.inj hm
    rw [Master.send]
    split
    · rename_i hconn
      refine ⟨fun hp => ?_, fun seq n op hop => h.queued seq n op ?_, h.entered, fun n k v hv => h.last n k v ?_, h.covered,
        h.again, h.unread, h.ends, h.inside, h.engine, fun r hr n hn k hd hpe => h.shown r hr n hn k hd ?_⟩
      · simp [Master.connected, show f.link.master.phase = .away from hp] at hconn
      · simpa using hop
      · rw [← hv]
        exact (pending_snoc n k _ (.workspace name removed)).symm
      · rw [← hpe]
        exact (pending_snoc n k _ (.workspace name removed)).symm
    · exact ⟨h.away, h.queued, h.entered, h.last, h.covered, h.again, h.unread, h.ends, h.inside, h.engine, h.shown⟩
  · cases hm

theorem Carries.create (h : f.Carries) {m : Master} {name : String} {files : Option Store}
    (hc : f.Clean (.create name files) = true) (hm : f.link.master.createWorkspace name files = some m) :
    Carries ⟨{ f.link with master := m }, f.carried ++ f.link.follows name⟩ := by
  simp only [Flow.Clean, Bool.and_eq_true] at hc
  obtain ⟨-, hc⟩ := hc
  rw [Master.createWorkspace] at hm
  split at hm
  · cases hm
  · split at hm
    · rename_i hv
      obtain rfl := Option.some.inj hm
      set disk : Disk := fun n => if n = name then f.link.master.folder name files else f.link.master.node.disk n with hdisk
      have hstore : ∀ n, n ≠ name ∨ n ∈ f.link.master.opened → disk.store n = f.link.master.node.disk.store n := by
        intro n hn
        rw [Disk.store, Disk.store, hdisk]
        by_cases heq : n = name
        · subst heq
          have hopen := hn.resolve_left fun hne => hne rfl
          simp [Master.folder, hopen]
        · simp [heq]
      have hunused : f.link.unused name files = true → ∀ r, arrives f.link.replica f.link.net = some r → ∀ k : String,
          (disk.store name)[k]? = none ∧ (r.node.disk.store name)[k]? = none := by
        intro hun r hr k
        simp only [Link.unused, Bool.and_eq_true, Std.ExtTreeMap.isEmpty_iff] at hun
        obtain ⟨⟨⟨hm, hrep⟩, -⟩, hnet⟩ := hun
        refine ⟨?_, ?_⟩
        · rw [Disk.store, hdisk]
          simp [hm]
        · rw [arrives_untouched hnet hr, hrep]
          simp
      refine ⟨h.away, h.queued, h.entered, fun n k v hv => ?_, fun rest hl n hn => ?_, fun rest hl n hn hmem => ?_,
        fun hl => ?_, h.ends, h.inside, h.engine, fun r hr n hn k hd hpe => ?_⟩
      · obtain ⟨seq, op, hop⟩ := mem_of_pending hv
        show (disk.store n)[k]? = v
        rw [hstore n (.inr (h.queued seq n op hop).1)]
        exact h.last n k v hv
      · have hl : f.link.master.phase.left = some rest := hl
        by_cases heq : n = name
        · subst heq
          by_cases hmem : n ∈ rest
          · exact .inr hmem
          · left
            simp [Link.follows, hl, hmem]
        · have hn' : f.link.covers n := by
            rcases hn with rfl | hn
            · exact .inl rfl
            · right
              have hadd := (Node.knows_add _ _ _ hv).symm.trans hn
              simpa [heq] using hadd
          exact (h.covered rest hl n hn').imp (List.mem_append_left _) id
      · have hl : f.link.master.phase.left = some rest := hl
        rcases List.mem_append.mp hn with hn | hn
        · exact h.again rest hl n hn hmem
        · simp only [Link.follows, hl] at hn
          split at hn
          · cases hn
          · rename_i hnot
            exact absurd (List.mem_singleton.mp hn ▸ hmem) hnot
      · have hl : f.link.master.phase.left = none := hl
        simp [Link.follows, hl, h.unread hl]
      · show Mirrors _ (disk.store n)[k]? _
        by_cases heq : n = name
        · subst heq
          cases hl : f.link.master.phase.left with
          | none =>
              rw [Phase.not_done hl] at hd
              cases hd
          | some rest =>
              simp only [hl, Bool.or_eq_true, Bool.and_eq_true, decide_eq_true_eq, List.contains_iff_mem] at hc
              rcases hc with (hmem | ⟨hopen, hcar⟩) | hun
              · by_cases hopen : n ∈ f.link.master.opened
                · have hn' : n ∈ f.carried := by simpa [Link.follows, hl, hmem] using hn
                  rw [hstore n (.inr hopen)]
                  exact h.shown r hr n hn' k hd hpe
                · rw [Phase.not_done_of_left hl hmem fun hat => hopen (h.entered n hat)] at hd
                  cases hd
              · rw [hstore n (.inr hopen)]
                exact h.shown r hr n hcar k hd hpe
              · obtain ⟨hm, hr'⟩ := hunused hun r hr k
                rw [hm, hr']
                exact Mirrors.refl
        · have hn' : n ∈ f.carried := by
            rcases List.mem_append.mp hn with hn | hn
            · exact hn
            · simp only [Link.follows] at hn
              split at hn
              · split at hn
                · cases hn
                · exact absurd (List.mem_singleton.mp hn) heq
              · cases hn
          rw [hstore n (.inl heq)]
          exact h.shown r hr n hn' k hd hpe
    · cases hm

theorem Carries.step (hst : Stable) (h : f.Carries) {e : Event} {f' : Flow} (hc : f.Clean e = true)
    (hs : f.step e = some f') : f'.Carries := by
  cases e with
  | turn t =>
      simp only [Flow.step, Option.map_eq_some_iff] at hs
      obtain ⟨s, hs', rfl⟩ := hs
      exact h.turn hst hc hs'
  | create name files =>
      simp only [Flow.step, Option.map_eq_some_iff] at hs
      obtain ⟨m, hm, rfl⟩ := hs
      exact h.create hc hm
  | remove name =>
      simp only [Flow.step, Option.map_eq_some_iff] at hs
      obtain ⟨m, hm, rfl⟩ := hs
      exact h.remove hm
  | tell i =>
      simp only [Flow.step, Option.map_eq_some_iff] at hs
      obtain ⟨m, hm, rfl⟩ := hs
      exact h.tell hm

/-- The replica has processed everything: nothing is left to tell, to send or to
follow. -/
structure Drained (f : Flow) : Prop where
  telling : f.link.master.telling = []
  queue : f.link.master.queue = []
  net : f.link.net = []
  live : ∃ current, f.link.master.phase = .live current

/-- The replica has the workspaces of the master, and a reader of one of them or
of the system database sees on it what it sees on the master. -/
def Converged (f : Flow) : Prop :=
  (∀ n, f.link.replica.node.knows n = f.link.master.node.knows n) ∧
    ∀ n, f.link.covers n → ∀ k : String,
      view f.link.now (f.link.replica.node.disk.store n)[k]? = view f.link.now (f.link.master.node.disk.store n)[k]?

theorem Start.carries {f : Flow} (h : f.link.Start) (hc : f.carried = []) : f.Carries := by
  have hl : f.link.master.phase.left = none := by
    rw [h.phase]
    rfl
  refine ⟨fun _ => ⟨h.queue, h.net⟩, fun seq n op hop => ?_, fun n hn => ?_, fun n k v hv => ?_, fun rest hr => ?_,
    fun rest hr => ?_, fun _ => hc, ?_, fun r _ => ?_, fun r _ cur hp => ?_, fun r _ n _ k hd => ?_⟩
  · rw [h.queue] at hop
    cases hop
  · rw [h.phase] at hn
    cases hn
  · rw [h.queue] at hv
    cases hv
  · rw [hl] at hr
    cases hr
  · rw [hl] at hr
    cases hr
  · rw [h.phase]
    trivial
  · rw [h.phase]
    trivial
  · rw [h.phase] at hp
    cases hp
  · rw [Phase.not_done hl] at hd
    cases hd

theorem Start.registers {s : Link} (h : s.Start) : s.Registers := by
  have hl : s.master.phase.left = none := by
    rw [h.phase]
    rfl
  refine ⟨fun p hp => ?_, ?_, fun _ => ⟨h.queue, h.net⟩, fun _ n _ => ?_, fun q seq n op q' hq => ?_, fun rest hr => ?_,
    fun rest hr => ?_⟩
  · rw [h.telling] at hp
    cases hp
  · rw [h.telling]
    exact List.nodup_nil
  · rw [h.queue]
    rfl
  · simp [h.queue] at hq
  · rw [hl] at hr
    cases hr
  · rw [hl] at hr
    cases hr

/-- In a run of clean steps, a replica that has processed everything it was sent
is a copy of its master. -/
theorem replica_converges (hst : Stable) (f₀ f : Flow) (es : List Event) (h₀ : f₀.link.Start) (hnil : f₀.carried = [])
    (hr : Runs.run step f₀ es = some f) (hc : Runs.Along step (fun f e => f.Clean e = true) f₀ es) (hd : f.Drained) :
    f.Converged := by
  have hreg : f.link.Registers :=
    Runs.invariant (I := fun f : Flow => f.link.Registers) (fun hi hp hs => registers_step hi hp hs) (Start.registers h₀) hc hr
  have hcar : f.Carries := Runs.invariant (fun hi hp hs => hi.step hst hp hs) (Start.carries h₀ hnil) hc hr
  obtain ⟨current, hp⟩ := hd.live
  have hl : f.link.master.phase.left = some [] := by
    rw [hp]
    rfl
  have harr : arrives f.link.replica f.link.net = some f.link.replica := by
    rw [hd.net]
    rfl
  refine ⟨fun n => ?_, fun n hn k => ?_⟩
  · by_cases hdef : n = defaultName
    · rw [hdef, Node.knows_default, Node.knows_default]
    · by_cases hsys : n = systemName
      · rw [hsys, Node.knows_system, Node.knows_system]
      · have hplain : f.link.plain n := Link.plain_iff.mpr ⟨hdef, hsys, by simp [hd.telling]⟩
        have hshown := hreg.shown [] hl f.link.replica harr n hplain
        rw [hd.queue] at hshown
        exact hshown
  · have hmem : n ∈ f.carried := (hcar.covered [] hl n hn).resolve_right (by simp)
    refine (hcar.shown f.link.replica harr n hmem k ?_ ?_ f.link.now (Int64.le_refl _)).symm
    · rw [hp]
      rfl
    · rw [hd.queue]
      rfl

end Flow

end

namespace Flow

open Reference Link

local instance convergeCodec : Codec := codec []

theorem stable_codec : Stable := by
  intro ty raw enc v msgpack raw' enc' hdec henc
  change decode [] ty raw enc = .ok v at hdec
  change encodeStored v msgpack = .ok (raw', enc') at henc
  unfold decode at hdec
  split at hdec
  · split at hdec
    · cases hdec
      cases henc
      refine ⟨rfl, ?_⟩
      show decode [] .string _ .json = _
      simp [decode, Lib.Utf8.fromUtf8_asBytes]
    · cases hdec
  · split at hdec
    · cases hdec
      cases henc
      refine ⟨rfl, ?_⟩
      show decode [] .number _ .json = _
      simp [decode, Lib.Utf8.fromUtf8_asBytes]
    · cases hdec
  · simp at hdec
  · cases hdec

def freshFlow : Flow := ⟨fresh, []⟩

def inW (key : String) (expiresAt : Int64) : Event :=
  .turn (.write "w" (.set key .string (Lib.Utf8.asBytes "v") .json 5 expiresAt true))

def serves (n : Nat) : List Event := List.replicate n (.turn (.serve true))

def followed (n : Nat) : List Event := List.replicate n (.turn .follow)

/-- A key is written behind the snapshot, and a workspace is created. -/
def grows : List Event :=
  [.turn .connect] ++ serves 5 ++ [.turn setA] ++ serves 4 ++ [.create "w" none, inW "b" 0, .tell 0] ++ serves 3 ++ followed 12

theorem grows_runs : (Runs.run step freshFlow grows).isSome := by decide

theorem drained_of {f : Flow} (ht : f.link.master.telling.isEmpty = true) (hq : f.link.master.queue.isEmpty = true)
    (hn : f.link.net.isEmpty = true)
    (hp : (match f.link.master.phase with | .live _ => true | _ => false) = true) : f.Drained := by
  refine ⟨List.isEmpty_iff.mp ht, List.isEmpty_iff.mp hq, List.isEmpty_iff.mp hn, ?_⟩
  split at hp
  · rename_i current hlive
    exact ⟨current, hlive⟩
  · cases hp

theorem grows_drained : ((Runs.run step freshFlow grows).get grows_runs).Drained :=
  drained_of (by decide) (by decide) (by decide) (by decide)

theorem replica_converges_sample :
    ∃ f, Runs.run step freshFlow grows = some f ∧ f.link.replica.node.spaces = ["w"] ∧ f.Converged := by
  have hrun := (Option.some_get grows_runs).symm
  refine ⟨_, hrun, by decide, ?_⟩
  exact replica_converges stable_codec freshFlow _ grows fresh_start rfl hrun (by decide) grows_drained

/-- A session is still in a workspace when it is removed, and writes after
another one. -/
def lingers : List Event :=
  [.turn .connect] ++ serves 9 ++ [.create "w" none, .tell 0, inW "a" 0, .remove "w", .tell 0, .turn setA, inW "b" 0] ++
    serves 5 ++ followed 14

theorem lingers_runs : (Runs.run step freshFlow lingers).isSome := by decide

theorem lingers_drained : ((Runs.run step freshFlow lingers).get lingers_runs).Drained :=
  drained_of (by decide) (by decide) (by decide) (by decide)

/-- A key is written with a deadline of 1971, in milliseconds. -/
def past : List Event :=
  [.turn (.tick 1700000000000), .turn .connect] ++ serves 9 ++ [.create "w" none, .tell 0, inW "a" 50000000000] ++
    serves 2 ++ followed 9

theorem past_runs : (Runs.run step freshFlow past).isSome := by decide

theorem past_drained : ((Runs.run step freshFlow past).get past_runs).Drained :=
  drained_of (by decide) (by decide) (by decide) (by decide)

theorem replica_diverges :
    (∃ f, Runs.run step freshFlow lingers = some f ∧ f.Drained ∧ f.link.master.node.knows "w" = false ∧
      f.link.replica.node.knows "w" = true ∧ ¬ f.Converged) ∧
    ∃ f, Runs.run step freshFlow past = some f ∧ f.Drained ∧
      view f.link.now (f.link.master.node.disk.store "w")["a"]? = none ∧
      (view f.link.now (f.link.replica.node.disk.store "w")["a"]?).isSome ∧ ¬ f.Converged := by
  refine ⟨⟨_, (Option.some_get lingers_runs).symm, lingers_drained, ?_⟩, _, (Option.some_get past_runs).symm, past_drained, ?_⟩
  · have hm : ((Runs.run step freshFlow lingers).get lingers_runs).link.master.node.knows "w" = false := by decide
    have hr : ((Runs.run step freshFlow lingers).get lingers_runs).link.replica.node.knows "w" = true := by decide
    refine ⟨hm, hr, fun h => ?_⟩
    have := h.1 "w"
    rw [hm, hr] at this
    cases this
  · have hm : (view ((Runs.run step freshFlow past).get past_runs).link.now
        (((Runs.run step freshFlow past).get past_runs).link.master.node.disk.store "w")["a"]?).isNone := by decide
    have hr : (view ((Runs.run step freshFlow past).get past_runs).link.now
        (((Runs.run step freshFlow past).get past_runs).link.replica.node.disk.store "w")["a"]?).isSome := by decide
    refine ⟨Option.isNone_iff_eq_none.mp hm, hr, fun h => ?_⟩
    have heq := h.2 "w" (.inr (by decide)) "a"
    rw [heq, Option.isNone_iff_eq_none.mp hm] at hr
    cases hr

end Flow

end KivaDb.Repl
