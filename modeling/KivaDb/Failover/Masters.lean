import KivaDb.Failover.Elect
import KivaDb.Lib.Runs
import Mathlib.Data.Finset.Card
import Mathlib.Data.List.Sublists
import Mathlib.Tactic.Linarith

namespace KivaDb.Failover

open Lib

/-- A call between two nodes; `reply` is there once it was handled. Its number is
its place among the calls made. -/
structure Call where
  caller : String
  callee : String
  request : Request
  reply : Option Reply

/-- A heartbeat on its way. -/
structure Beat where
  replica : String
  epoch : UInt64
  nodes : List String

/-- The nodes of the group, by their addresses, and what goes between them.
`stood` keeps the candidacies, `promoted` the nodes made master, with their
epochs. -/
structure Net where
  node : String → Node
  elect : String → Elect
  /-- The number of the call that `elect` made last. -/
  awaited : String → Nat
  calls : List Call
  beats : List Beat
  stood : List (String × UInt64 × View)
  promoted : List (String × UInt64)

namespace Net

inductive Action
  | connect (m r : String)
  | leave (m r : String)
  | heartbeat (m r : String)
  | receive (i : Nat)
  | stream (n : String) (seq appliedSeq : UInt64)
  | handle (k : Nat) (s : Settings) (elapsed : Bool)
  | start (n : String) (s : Settings) (elapsed : Bool)
  /-- `elect` goes on; where it waits, with the answer or without one. -/
  | elect (n : String) (answered : Bool)

def setNode (net : Net) (n : String) (x : Node) : Net := { net with node := Function.update net.node n x }

/-- `elect` of `n` makes its next calls. -/
def send (net : Net) (n : String) (e : Elect) (sends : List (String × Request)) : Net :=
  { net with
    elect := Function.update net.elect n e
    awaited := Function.update net.awaited n net.calls.length
    calls := net.calls ++ sends.map fun p => ⟨n, p.1, p.2, none⟩ }

/-- The candidacy that a step of `elect` records, and the promotion it makes. -/
def standing (n : String) : Elect → List (String × UInt64 × View)
  | .recording v _ epoch => [(n, epoch, v)]
  | _ => []

def promoting (n : String) : Elect → List (String × UInt64)
  | .winning _ epoch => [(n, epoch)]
  | _ => []

/-- The answer to the call that `elect` of `n` waits for. -/
def answer (net : Net) (n : String) : Option Reply := (net.calls[net.awaited n]?).bind Call.reply

def advance (net : Net) (n : String) (answer : Option Reply) : Net :=
  let e := net.elect n
  let r := e.step answer (net.node n)
  { (net.setNode n r.1).send n r.2.1 r.2.2 with
    stood := net.stood ++ standing n e
    promoted := net.promoted ++ promoting n e }

/-- Each handled request is one step. With the default quorum. -/
def step (net : Net) : Action → Option Net
  | .connect m r => some (net.setNode m { net.node m with replicas := (net.node m).replicas ++ [r] })
  | .leave m r => some (net.setNode m { net.node m with replicas := (net.node m).replicas.erase r })
  | .heartbeat m r =>
      if r ∈ (net.node m).replicas then
        some { net with beats := net.beats ++ [⟨r, (net.node m).epoch, (net.node m).replicas⟩] }
      else none
  | .receive i =>
      (net.beats[i]?).map fun b =>
        { net.setNode b.replica ((net.node b.replica).learn b.epoch b.nodes) with beats := net.beats.eraseIdx i }
  | .stream n seq appliedSeq => some (net.setNode n { net.node n with seq, appliedSeq })
  | .handle k s elapsed =>
      match net.calls[k]? with
      | none => none
      | some c =>
          if c.reply.isSome then none
          else
            let r := (net.node c.callee).handle s elapsed c.request
            some { net.setNode c.callee r.1 with calls := net.calls.set k { c with reply := some r.2 } }
  | .start n s elapsed =>
      if net.elect n = .idle ∧ s.quorum = 0 then
        (Elect.start s elapsed (net.node n)).map fun r => net.send n r.1 r.2
      else none
  | .elect n answered =>
      if net.elect n = .idle then none
      else if answered then
        if (net.elect n).waiting && (net.answer n).isSome then some (net.advance n (net.answer n)) else none
      else some (net.advance n none)

/-- The nodes that a candidate counts, the master apart. -/
def members (v : View) : Finset String := insert v.me v.peers.toFinset

/-- Of the nodes counted in one view or the other, a quorum of the first and a
quorum of the second share one. -/
def Overlap (v w : View) : Prop := (members v ∪ members w).card < v.needed + w.needed

instance (v w : View) : Decidable (Overlap v w) := inferInstanceAs (Decidable (_ < _))

/-- Where a candidacy is recorded, its epoch is later than the last vote of the
node, and its view overlaps those of the other candidates of that epoch. -/
def Sound (net : Net) : Action → Prop
  | .elect n _ =>
      match net.elect n with
      | .recording v _ epoch =>
          (net.node n).voted < epoch ∧ ∀ p ∈ net.stood, p.2.1 = epoch → p.1 ≠ n → Overlap p.2.2 v
      | _ => True
  | _ => True

instance (net : Net) : (a : Action) → Decidable (net.Sound a)
  | .elect n _ =>
      match h : net.elect n with
      | .recording v _ epoch =>
          decidable_of_iff ((net.node n).voted < epoch ∧ ∀ p ∈ net.stood, p.2.1 = epoch → p.1 ≠ n → Overlap p.2.2 v)
            (by simp [Sound, h])
      | .idle | .hailing .. | .alone .. | .probing .. | .standing .. | .asking .. | .winning .. | .leading .. =>
          isTrue (by simp [Sound, h])
  | .connect .. | .leave .. | .heartbeat .. | .receive .. | .stream .. | .handle .. | .start .. => isTrue trivial

/-- Nothing has been sent yet. -/
structure Quiet (net : Net) : Prop where
  advertised : ∀ n, (net.node n).advertised = n
  idle : ∀ n, net.elect n = .idle
  calls : net.calls = []
  stood : net.stood = []
  promoted : net.promoted = []

/-- In each epoch one node at most was promoted. -/
def OneMaster (net : Net) : Prop := ∀ n m e, (n, e) ∈ net.promoted → (m, e) ∈ net.promoted → n = m

/-- In call `k`, `v` gave `x` its vote in epoch `e`. -/
def Gave (calls : List Call) (k : Nat) (v : String) (e : UInt64) (x : String) : Prop :=
  ∃ c, calls[k]? = some c ∧ c.callee = v ∧ (∃ s, c.request = .vote e x s) ∧ ∃ d, c.reply = some (.vote true d)

/-- The calls made stay as they are, but for the replies to come. -/
def Extends (cs ds : List Call) : Prop :=
  ∀ (k : Nat) (c : Call), cs[k]? = some c → ∃ d, ds[k]? = some d ∧ d.callee = c.callee ∧ d.request = c.request ∧
    (c.reply.isSome → d.reply = c.reply)

theorem Extends.refl (cs : List Call) : Extends cs cs := fun _ c h => ⟨c, h, rfl, rfl, fun _ => rfl⟩

theorem extends_append (cs ds : List Call) : Extends cs (cs ++ ds) := by
  intro k c h
  obtain ⟨hk, -⟩ := List.getElem?_eq_some_iff.mp h
  exact ⟨c, by rw [List.getElem?_append_left hk, h], rfl, rfl, fun _ => rfl⟩

theorem extends_set {cs : List Call} {k : Nat} {c : Call} (h : cs[k]? = some c) (hr : c.reply = none)
    (r : Option Reply) : Extends cs (cs.set k { c with reply := r }) := by
  intro l d hd
  obtain ⟨hl, -⟩ := List.getElem?_eq_some_iff.mp hd
  by_cases hkl : k = l
  · subst hkl
    obtain rfl : d = c := Option.some.inj (hd.symm.trans h)
    exact ⟨_, List.getElem?_set_self hl, rfl, rfl, fun hs => by simp [hr] at hs⟩
  · exact ⟨d, by rw [List.getElem?_set_ne hkl, hd], rfl, rfl, fun _ => rfl⟩

theorem Gave.extends {cs ds : List Call} (h : Extends cs ds) {k : Nat} {v : String} {e : UInt64} {x : String}
    (hg : Gave cs k v e x) : Gave ds k v e x := by
  obtain ⟨c, hc, hv, ⟨s, hs⟩, r, hr⟩ := hg
  obtain ⟨d, hd, hcallee, hreq, hrep⟩ := h k c hc
  exact ⟨d, hd, hcallee.trans hv, ⟨s, hreq.trans hs⟩, r, (hrep (by simp [hr])).trans hr⟩

/-- Calls that were only just made gave nothing. -/
theorem gave_append {cs ds : List Call} (h : ∀ c ∈ ds, c.reply = none) {k : Nat} {v : String} {e : UInt64} {x : String} :
    Gave (cs ++ ds) k v e x ↔ Gave cs k v e x := by
  constructor
  · rintro ⟨c, hc, hrest⟩
    rw [List.getElem?_append] at hc
    split at hc
    · exact ⟨c, hc, hrest⟩
    · obtain ⟨-, -, r, hr⟩ := hrest
      rw [h c (List.mem_of_getElem? hc)] at hr
      cases hr
  · exact Gave.extends (extends_append cs ds)

/-- A call that is handled adds the vote it gives, if it gives one. -/
theorem gave_set {cs : List Call} {k : Nat} {c : Call} (h : cs[k]? = some c) (hr : c.reply = none) (r : Reply)
    {l : Nat} {v : String} {e : UInt64} {x : String} :
    Gave (cs.set k { c with reply := some r }) l v e x ↔
      Gave cs l v e x ∨ l = k ∧ c.callee = v ∧ (∃ s, c.request = .vote e x s) ∧ ∃ d, r = .vote true d := by
  constructor
  · rintro ⟨d, hd, hv, hs, q, hq⟩
    by_cases hkl : k = l
    · subst hkl
      rw [List.getElem?_set_self (List.getElem?_eq_some_iff.mp h).1] at hd
      cases hd
      exact .inr ⟨rfl, hv, hs, q, Option.some.inj hq⟩
    · rw [List.getElem?_set_ne hkl] at hd
      exact .inl ⟨d, hd, hv, hs, q, hq⟩
  · rintro (hg | ⟨rfl, hv, hs, q, rfl⟩)
    · exact hg.extends (extends_set h hr _)
    · exact ⟨_, List.getElem?_set_self (List.getElem?_eq_some_iff.mp h).1, hv, hs, q, rfl⟩

/-- The votes that candidate `n` of epoch `e` has counted in the calls before `k`. -/
def Tally (calls : List Call) (n : String) (e : UInt64) (v : View) (k votes : Nat) : Prop :=
  ∃ V : Finset String, V.card = votes ∧ V ⊆ members v ∧ ∀ u ∈ V, u = n ∨ ∃ l < k, Gave calls l u e n

theorem Tally.mono {cs ds : List Call} {n : String} {e : UInt64} {v : View} {k l votes : Nat} (h : Extends cs ds)
    (hkl : k ≤ l) (ht : Tally cs n e v k votes) : Tally ds n e v l votes := by
  obtain ⟨V, hcard, hsub, hV⟩ := ht
  refine ⟨V, hcard, hsub, fun u hu => (hV u hu).imp id ?_⟩
  rintro ⟨j, hj, hg⟩
  exact ⟨j, hj.trans_le hkl, hg.extends h⟩

/-- Where `elect` of `n` may stand: the nodes it asks are those of its view, and
the votes it counted were given. -/
def Placed (calls : List Call) (stood : List (String × UInt64 × View)) (n : String) (k : Nat) : Elect → Prop
  | .idle => True
  | .hailing .. => True
  | .alone v => v.me = n
  | .probing v agree _ p rest => v.me = n ∧ (∀ c ∈ agree, c.addr ∈ v.me :: v.peers) ∧ p :: rest ⊆ v.peers
  | .standing v agree _ => v.me = n ∧ ∀ c ∈ agree, c.addr ∈ v.me :: v.peers
  | .recording v agree _ => v.me = n ∧ ∀ c ∈ agree, c.addr ∈ v.me :: v.peers
  | .asking v e votes c rest =>
      (n, e, v) ∈ stood ∧ v.me = n ∧ c :: rest ⊆ v.peers ∧ Tally calls n e v k votes ∧
        ∃ q, calls[k]? = some q ∧ q.callee = c ∧ ∃ s, q.request = .vote e n s
  | .winning v e => (n, e, v) ∈ stood ∧ ∃ votes, v.needed ≤ votes ∧ ∃ l, Tally calls n e v l votes
  | .leading .. => True

theorem Placed.mono {cs ds : List Call} {st st' : List (String × UInt64 × View)} {n : String} {k : Nat} {e : Elect}
    (h : Extends cs ds) (hst : st ⊆ st') (hp : Placed cs st n k e) : Placed ds st' n k e := by
  cases e with
  | asking v e votes c rest =>
      obtain ⟨hmem, hme, hsub, ht, q, hq, hc, s, hs⟩ := hp
      obtain ⟨d, hd, hcallee, hreq, -⟩ := h k q hq
      exact ⟨hst hmem, hme, hsub, ht.mono h le_rfl, d, hd, hcallee.trans hc, s, hreq.trans hs⟩
  | winning v e =>
      obtain ⟨hmem, votes, hn, l, ht⟩ := hp
      exact ⟨hst hmem, votes, hn, l, ht.mono h le_rfl⟩
  | idle => exact hp
  | hailing s m => exact hp
  | alone v => exact hp
  | probing v agree highest p rest => exact hp
  | standing v agree highest => exact hp
  | recording v agree epoch => exact hp
  | leading v e => exact hp

/-- What holds of the votes given and of the candidacies. -/
structure Ledger (net : Net) : Prop where
  advertised : ∀ n, (net.node n).advertised = n
  bound : ∀ {k v e x}, Gave net.calls k v e x → e ≤ (net.node v).voted
  once : ∀ {k l v e x y}, Gave net.calls k v e x → Gave net.calls l v e y → k = l
  recorded : ∀ {n e v}, (n, e, v) ∈ net.stood → e ≤ (net.node n).voted
  own : ∀ {n e v k x}, (n, e, v) ∈ net.stood → ¬ Gave net.calls k n e x
  alone : ∀ {n e v w}, (n, e, v) ∈ net.stood → (n, e, w) ∈ net.stood → v = w
  overlap : ∀ {n m e v w}, (n, e, v) ∈ net.stood → (m, e, w) ∈ net.stood → n ≠ m → Overlap v w

structure Inv (net : Net) : Prop extends Ledger net where
  placed : ∀ n, Placed net.calls net.stood n (net.awaited n) (net.elect n)
  won : ∀ {n e}, (n, e) ∈ net.promoted → ∃ v, (n, e, v) ∈ net.stood ∧
    ∃ votes, v.needed ≤ votes ∧ ∃ l, Tally net.calls n e v l votes

theorem Quiet.inv {net : Net} (h : net.Quiet) : net.Inv where
  advertised := h.advertised
  bound := by
    rintro k v e x ⟨c, hc, -⟩
    simp [h.calls] at hc
  once := by
    rintro k l v e x y ⟨c, hc, -⟩
    simp [h.calls] at hc
  recorded := by simp [h.stood]
  own := by simp [h.stood]
  alone := by simp [h.stood]
  overlap := by simp [h.stood]
  placed n := by
    rw [h.idle n]
    trivial
  won := by simp [h.promoted]

/-- Two candidates of one epoch do not both count a quorum of votes. -/
theorem Ledger.one_winner {net : Net} (h : net.Ledger) {n m : String} {e : UInt64} {v w : View} {i j k l : Nat}
    (hn : (n, e, v) ∈ net.stood) (hm : (m, e, w) ∈ net.stood) (hi : v.needed ≤ i) (hj : w.needed ≤ j)
    (hv : Tally net.calls n e v k i) (hw : Tally net.calls m e w l j) : n = m := by
  by_contra hne
  obtain ⟨V, rfl, hV, hgV⟩ := hv
  obtain ⟨W, rfl, hW, hgW⟩ := hw
  have hdisj : Disjoint V W := by
    rw [Finset.disjoint_left]
    intro u huV huW
    rcases hgV u huV with rfl | ⟨a, -, ha⟩
    · rcases hgW u huW with rfl | ⟨b, -, hb⟩
      · exact hne rfl
      · exact h.own hn hb
    · rcases hgW u huW with rfl | ⟨b, -, hb⟩
      · exact h.own hm ha
      · obtain rfl := h.once ha hb
        obtain ⟨c, hc, -, ⟨s, hs⟩, -⟩ := ha
        obtain ⟨d, hd, -, ⟨t, ht⟩, -⟩ := hb
        obtain rfl : c = d := Option.some.inj (hc.symm.trans hd)
        rw [hs] at ht
        cases ht
        exact hne rfl
  have hcard : V.card + W.card ≤ (members v ∪ members w).card := by
    rw [← Finset.card_union_of_disjoint hdisj]
    exact Finset.card_le_card (Finset.union_subset_union hV hW)
  have hover := h.overlap hn hm hne
  rw [Overlap] at hover
  omega

theorem Inv.oneMaster {net : Net} (h : net.Inv) : net.OneMaster := by
  intro n m e hn hm
  obtain ⟨v, hv, i, hi, k, hk⟩ := h.won hn
  obtain ⟨w, hw, j, hj, l, hl⟩ := h.won hm
  exact h.one_winner hv hw hi hj hk hl

/-- The ledger does not change while no vote is given or recorded. -/
theorem Ledger.keep {net net' : Net} (h : net.Ledger)
    (hg : ∀ {k v e x}, Gave net'.calls k v e x → Gave net.calls k v e x) (hst : net'.stood = net.stood)
    (hn : ∀ n, (net'.node n).voted = (net.node n).voted ∧ (net'.node n).advertised = (net.node n).advertised) :
    net'.Ledger where
  advertised n := (hn n).2.trans (h.advertised n)
  bound hk := (hn _).1 ▸ h.bound (hg hk)
  once hk hl := h.once (hg hk) (hg hl)
  recorded hm := (hn _).1 ▸ h.recorded (hst ▸ hm)
  own hm hk := h.own (hst ▸ hm) (hg hk)
  alone hv hw := h.alone (hst ▸ hv) (hst ▸ hw)
  overlap hv hw := h.overlap (hst ▸ hv) (hst ▸ hw)

theorem setNode_frame (net : Net) (n : String) (x : Node) (hx : x.voted = (net.node n).voted)
    (ha : x.advertised = (net.node n).advertised) (m : String) :
    ((net.setNode n x).node m).voted = (net.node m).voted ∧
      ((net.setNode n x).node m).advertised = (net.node m).advertised := by
  by_cases hm : m = n
  · subst hm
    simp [setNode, hx, ha]
  · simp [setNode, Function.update_of_ne hm]

/-- What a node does apart from votes and elections keeps the invariant. -/
theorem Inv.setNode {net : Net} (h : net.Inv) (n : String) (x : Node) (beats : List Beat)
    (hx : x.voted = (net.node n).voted) (ha : x.advertised = (net.node n).advertised) :
    { net.setNode n x with beats := beats }.Inv where
  toLedger := h.toLedger.keep id rfl (setNode_frame net n x hx ha)
  placed := h.placed
  won := h.won

/-- A vote is given where its epoch is later than the last one. -/
theorem handle_cases (n : Node) (s : Settings) (elapsed : Bool) (r : Request) :
    (n.handle s elapsed r).1.advertised = n.advertised ∧
      ((∃ e x q, r = .vote e x q ∧ n.voted < e ∧ (n.handle s elapsed r).1.voted = e ∧
          (n.handle s elapsed r).2 = .vote true n.epoch) ∨
        (n.handle s elapsed r).1.voted = n.voted ∧ ∀ d, (n.handle s elapsed r).2 ≠ .vote true d) := by
  cases r with
  | probe => exact ⟨rfl, .inr ⟨rfl, fun d => by simp [Node.handle]⟩⟩
  | announce e m =>
      simp only [Node.handle]
      split
      · exact ⟨Node.followNewMaster_advertised _ _ _, .inr ⟨Node.followNewMaster_voted _ _ _, by simp⟩⟩
      · exact ⟨rfl, .inr ⟨rfl, by simp⟩⟩
  | vote e x q =>
      simp only [Node.handle]
      split
      · rename_i hg
        have hlt : n.voted < e := by
          simp only [grants, Bool.and_eq_true, decide_eq_true_eq] at hg
          exact hg.2.1.1.2
        exact ⟨rfl, .inl ⟨e, x, q, rfl, hlt, rfl, rfl⟩⟩
      · exact ⟨rfl, .inr ⟨rfl, by simp⟩⟩

theorem Ledger.handle {net : Net} (h : net.Ledger) {k : Nat} {c : Call} (hc : net.calls[k]? = some c)
    (hr : c.reply = none) (s : Settings) (elapsed : Bool) :
    { net.setNode c.callee ((net.node c.callee).handle s elapsed c.request).1 with
      calls := net.calls.set k { c with reply := some ((net.node c.callee).handle s elapsed c.request).2 } }.Ledger := by
  obtain ⟨hadv, ⟨e, x, q, hreq, hlt, hvoted, hrep⟩ | ⟨hvoted, hrep⟩⟩ :=
    handle_cases (net.node c.callee) s elapsed c.request
  · have hgave : ∀ {l v e' y}, Gave (net.calls.set k
        { c with reply := some ((net.node c.callee).handle s elapsed c.request).2 }) l v e' y →
        Gave net.calls l v e' y ∨ l = k ∧ v = c.callee ∧ e' = e ∧ y = x := by
      intro l v e' y hg
      rcases (gave_set hc hr _).mp hg with hg | ⟨rfl, rfl, ⟨t, ht⟩, -⟩
      · exact .inl hg
      · rw [hreq] at ht
        cases ht
        exact .inr ⟨rfl, rfl, rfl, rfl⟩
    have hrise : ∀ n, (net.node n).voted ≤
        ((net.setNode c.callee ((net.node c.callee).handle s elapsed c.request).1).node n).voted := by
      intro n
      by_cases hn : n = c.callee
      · subst hn
        simpa [Net.setNode, hvoted] using UInt64.le_of_lt hlt
      · simp [Net.setNode, Function.update_of_ne hn]
    have hfresh : ∀ {l y}, ¬ Gave net.calls l c.callee e y := fun hg =>
      absurd (h.bound hg) (UInt64.not_le.mpr hlt)
    constructor
    · intro n
      by_cases hn : n = c.callee
      · subst hn
        simpa [Net.setNode, hadv] using h.advertised c.callee
      · simpa [Net.setNode, Function.update_of_ne hn] using h.advertised n
    · intro l v e' y hg
      rcases hgave hg with hg | ⟨rfl, rfl, rfl, rfl⟩
      · exact UInt64.le_trans (h.bound hg) (hrise v)
      · simp [Net.setNode, hvoted]
    · intro l l' v e' y y' hl hl'
      rcases hgave hl with hold | ⟨rfl, rfl, rfl, rfl⟩
      · rcases hgave hl' with hold' | ⟨rfl, rfl, rfl, rfl⟩
        · exact h.once hold hold'
        · exact absurd hold hfresh
      · rcases hgave hl' with hold' | ⟨rfl, -, -, -⟩
        · exact absurd hold' hfresh
        · rfl
    · intro n e' v hm
      exact UInt64.le_trans (h.recorded hm) (hrise n)
    · intro n e' v l y hm hg
      rcases hgave hg with hg | ⟨rfl, rfl, rfl, rfl⟩
      · exact h.own hm hg
      · exact absurd (h.recorded hm) (UInt64.not_le.mpr hlt)
    · exact h.alone
    · exact h.overlap
  · refine h.keep ?_ rfl (setNode_frame net _ _ hvoted hadv)
    intro l v e y hg
    rcases (gave_set hc hr _).mp hg with hg | ⟨-, -, -, d, hd⟩
    · exact hg
    · exact absurd hd (hrep d)

theorem Inv.handle {net : Net} (h : net.Inv) {k : Nat} {c : Call} (hc : net.calls[k]? = some c)
    (hr : c.reply = none) (s : Settings) (elapsed : Bool) :
    { net.setNode c.callee ((net.node c.callee).handle s elapsed c.request).1 with
      calls := net.calls.set k { c with reply := some ((net.node c.callee).handle s elapsed c.request).2 } }.Inv where
  toLedger := h.toLedger.handle hc hr s elapsed
  placed n := (h.placed n).mono (extends_set hc hr _) (List.Subset.refl _)
  won hp := by
    obtain ⟨v, hv, votes, hn, l, ht⟩ := h.won hp
    exact ⟨v, hv, votes, hn, l, ht.mono (extends_set hc hr _) le_rfl⟩

theorem gave_send {net : Net} {n : String} {sends : List (String × Request)} {k : Nat} {v : String} {e : UInt64}
    {x : String} :
    Gave (net.calls ++ sends.map fun p => ⟨n, p.1, p.2, none⟩) k v e x ↔ Gave net.calls k v e x :=
  gave_append (by
    intro c hc
    obtain ⟨p, -, rfl⟩ := List.mem_map.mp hc
    rfl)

/-- A step of `elect` keeps where the others stand. -/
theorem Placed.send {net : Net} {st : List (String × UInt64 × View)} {n : String} {e : Elect}
    {sends : List (String × Request)} (h : ∀ m, Placed net.calls net.stood m (net.awaited m) (net.elect m))
    (hst : net.stood ⊆ st)
    (hn : Placed (net.calls ++ sends.map fun p => ⟨n, p.1, p.2, none⟩) st n net.calls.length e) (m : String) :
    Placed (net.send n e sends).calls st m ((net.send n e sends).awaited m) ((net.send n e sends).elect m) := by
  by_cases hm : m = n
  · subst hm
    simpa [Net.send] using hn
  · simpa [Net.send, Function.update_of_ne hm] using (h m).mono (extends_append _ _) hst

theorem placed_probe (calls : List Call) (st : List (String × UInt64 × View)) {n : String} (k : Nat) {v : View}
    {agree : List Candidate} (highest : UInt64) {rest : List String} (hme : v.me = n)
    (ha : ∀ c ∈ agree, c.addr ∈ v.me :: v.peers) (hrest : rest ⊆ v.peers) :
    Placed calls st n k (Elect.probe v agree highest rest).1 := by
  cases rest with
  | cons p ps => exact ⟨hme, ha, hrest⟩
  | nil =>
      rw [Elect.probe, Elect.choose]
      split
      · trivial
      · split
        · trivial
        · split
          · trivial
          · exact ⟨hme, ha⟩

theorem placed_ask {calls : List Call} {st : List (String × UInt64 × View)} {n : String} {v : View} {e : UInt64}
    {votes : Nat} {rest : List String} (hst : (n, e, v) ∈ st) (hme : v.me = n) (hrest : rest ⊆ v.peers)
    (ht : Tally calls n e v calls.length votes) :
    Placed (calls ++ (Elect.ask v e votes rest).2.map fun p => ⟨n, p.1, p.2, none⟩) st n calls.length
      (Elect.ask v e votes rest).1 := by
  cases rest with
  | cons c cs =>
      refine ⟨hst, hme, hrest, ht.mono (extends_append _ _) le_rfl, ⟨n, c, .vote e v.me v.seq, none⟩, ?_, rfl, v.seq, ?_⟩
      · simp [Elect.ask]
      · rw [hme]
  | nil =>
      simp only [Elect.ask, List.map_nil, List.append_nil]
      split
      · trivial
      · rename_i hv
        exact ⟨hst, votes, not_lt.mp hv, calls.length, ht⟩

/-- The vote that was asked for counts once more. -/
theorem Ledger.count {net : Net} (h : net.Ledger) {n : String} {v : View} {e : UInt64} {votes k : Nat} {c : String}
    {q : Call} (hst : (n, e, v) ∈ net.stood) (hc : c ∈ v.peers) (ht : Tally net.calls n e v k votes)
    (hq : net.calls[k]? = some q) (hcallee : q.callee = c) (hreq : ∃ s, q.request = .vote e n s) {r : Reply}
    (hr : q.reply = some r) (hg : r.granted = true) : Tally net.calls n e v net.calls.length (votes + 1) := by
  have hgave : Gave net.calls k c e n := by
    cases r with
    | vote g d =>
        obtain rfl : g = true := hg
        exact ⟨q, hq, hcallee, hreq, d, hr⟩
    | probe => cases hg
    | announce => cases hg
  obtain ⟨V, hcard, hsub, hV⟩ := ht
  have hnot : c ∉ V := by
    intro hmem
    rcases hV c hmem with rfl | ⟨l, hl, hgl⟩
    · exact h.own hst hgave
    · exact absurd (h.once hgl hgave) hl.ne
  have hk : k < net.calls.length := (List.getElem?_eq_some_iff.mp hq).1
  refine ⟨insert c V, by rw [Finset.card_insert_of_notMem hnot, hcard], ?_, ?_⟩
  · intro u hu
    rcases Finset.mem_insert.mp hu with rfl | hu
    · exact Finset.mem_insert_of_mem (List.mem_toFinset.mpr hc)
    · exact hsub hu
  · intro u hu
    rcases Finset.mem_insert.mp hu with rfl | hu
    · exact .inr ⟨k, hk, hgave⟩
    · refine (hV u hu).imp id ?_
      rintro ⟨l, hl, hgl⟩
      exact ⟨l, hl.trans hk, hgl⟩

/-- Apart from the step that records a candidacy. -/
theorem standing_cases (n : String) (e : Elect) :
    (∃ v agree epoch, e = .recording v agree epoch) ∨ standing n e = [] ∧ e.ownVote = none := by
  cases e with
  | recording v agree epoch => exact .inl ⟨v, agree, epoch, rfl⟩
  | _ => exact .inr ⟨rfl, rfl⟩

theorem Ledger.advance {net : Net} (h : net.Ledger) {n : String} {b : Bool} (hs : net.Sound (.elect n b))
    (answer : Option Reply) :
    (net.advance n answer).Ledger := by
  obtain ⟨hvoted, hadv⟩ := Elect.step_frame answer (net.node n) (net.elect n)
  rcases standing_cases n (net.elect n) with ⟨v, agree, epoch, he⟩ | ⟨hst, hown⟩
  · simp only [Sound, he] at hs
    obtain ⟨hlt, hover⟩ := hs
    have hmem : ∀ {m e w}, (m, e, w) ∈ (net.advance n answer).stood →
        (m, e, w) ∈ net.stood ∨ m = n ∧ e = epoch ∧ w = v := by
      intro m e w hm
      simpa [Net.advance, he, Net.standing] using hm
    have hgave : ∀ {k u e x}, Gave (net.advance n answer).calls k u e x → Gave net.calls k u e x := gave_send.mp
    have hself : ((net.advance n answer).node n).voted = epoch := by
      simp [Net.advance, Net.send, Net.setNode, he, Elect.step]
    have hne : ∀ {m}, m ≠ n → (net.advance n answer).node m = net.node m := by
      intro m hm
      simp [Net.advance, Net.send, Net.setNode, Function.update_of_ne hm]
    have hrise : ∀ m, (net.node m).voted ≤ ((net.advance n answer).node m).voted := by
      intro m
      by_cases hm : m = n
      · subst hm
        rw [hself]
        exact UInt64.le_of_lt hlt
      · rw [hne hm]
        exact UInt64.le_rfl
    have hfresh : ∀ {w}, (n, epoch, w) ∉ net.stood := fun hm => absurd (h.recorded hm) (UInt64.not_le.mpr hlt)
    constructor
    · intro m
      by_cases hm : m = n
      · subst hm
        simpa [Net.advance, Net.send, Net.setNode] using hadv.trans (h.advertised m)
      · rw [hne hm]
        exact h.advertised m
    · intro k u e x hg
      exact UInt64.le_trans (h.bound (hgave hg)) (hrise u)
    · intro k l u e x y hk hl
      exact h.once (hgave hk) (hgave hl)
    · intro m e w hm
      rcases hmem hm with hm | ⟨rfl, rfl, rfl⟩
      · exact UInt64.le_trans (h.recorded hm) (hrise m)
      · rw [hself]
        exact UInt64.le_rfl
    · intro m e w k x hm hg
      rcases hmem hm with hm | ⟨rfl, rfl, rfl⟩
      · exact h.own hm (hgave hg)
      · exact absurd (h.bound (hgave hg)) (UInt64.not_le.mpr hlt)
    · intro m e w w' hw hw'
      rcases hmem hw with hold | ⟨rfl, rfl, rfl⟩
      · rcases hmem hw' with hold' | ⟨rfl, rfl, rfl⟩
        · exact h.alone hold hold'
        · exact absurd hold hfresh
      · rcases hmem hw' with hold' | ⟨-, -, rfl⟩
        · exact absurd hold' hfresh
        · rfl
    · intro m m' e w w' hw hw' hmm
      rcases hmem hw with hold | ⟨rfl, rfl, rfl⟩
      · rcases hmem hw' with hold' | ⟨rfl, rfl, rfl⟩
        · exact h.overlap hold hold' hmm
        · exact hover _ hold rfl hmm
      · rcases hmem hw' with hold' | ⟨rfl, -, -⟩
        · have hsym := hover _ hold' rfl (Ne.symm hmm)
          rw [Overlap, Finset.union_comm, Nat.add_comm] at hsym
          exact hsym
        · exact absurd rfl hmm
  · rw [hown] at hvoted
    refine h.keep gave_send.mp ?_ (setNode_frame net n _ hvoted hadv)
    simp [Net.advance, hst]

theorem Inv.advance {net : Net} (h : net.Inv) {n : String} {b : Bool} (hs : net.Sound (.elect n b))
    (answer : Option Reply) (ha : answer = none ∨ answer = net.answer n) : (net.advance n answer).Inv where
  toLedger := h.toLedger.advance hs answer
  placed := by
    refine Placed.send h.placed
      (List.subset_append_left _ _) ?_
    have hp := h.placed n
    cases he : net.elect n with
    | idle => trivial
    | hailing s m =>
        simp only [Elect.step]
        split
        · trivial
        · exact h.advertised n
    | alone v =>
        rw [he] at hp
        exact placed_probe _ _ _ _ hp (by simp) (List.Subset.refl _)
    | probing v agree highest p rest =>
        rw [he] at hp
        obtain ⟨hme, hagree, hsub⟩ := hp
        obtain ⟨hp, hrest⟩ := List.cons_subset.mp hsub
        cases answer with
        | none => exact placed_probe _ _ _ _ hme hagree hrest
        | some r =>
            simp only [Elect.step]
            split
            · trivial
            · refine placed_probe _ _ _ _ hme ?_ hrest
              intro c hc
              split at hc
              · rcases List.mem_append.mp hc with hc | hc
                · exact hagree c hc
                · rw [List.mem_singleton.mp hc]
                  exact List.mem_cons_of_mem _ hp
              · exact hagree c hc
    | standing v agree highest =>
        rw [he] at hp
        exact hp
    | recording v agree epoch =>
        rw [he] at hp
        obtain ⟨hme, hagree⟩ := hp
        have hst : (n, epoch, v) ∈ net.stood ++ Net.standing n (net.elect n) := by simp [he, Net.standing]
        refine placed_ask hst hme ?_ ?_
        · intro a hmem
          obtain ⟨c, hc, rfl⟩ := List.mem_map.mp hmem
          obtain ⟨hc, hne⟩ := List.mem_filter.mp hc
          rcases List.mem_cons.mp (hagree c hc) with heq | hpeer
          · simp [heq] at hne
          · exact hpeer
        · refine ⟨{n}, Finset.card_singleton n, ?_, fun u hu => .inl (Finset.mem_singleton.mp hu)⟩
          intro u hu
          rw [Finset.mem_singleton.mp hu, members, hme]
          exact Finset.mem_insert_self _ _
    | asking v e votes c rest =>
        rw [he] at hp
        obtain ⟨hst, hme, hsub, ht, q, hq, hcallee, hreq⟩ := hp
        obtain ⟨hc, hrest⟩ := List.cons_subset.mp hsub
        have hk : net.awaited n < net.calls.length := (List.getElem?_eq_some_iff.mp hq).1
        refine placed_ask (List.mem_append_left _ hst) hme hrest ?_
        split
        · rename_i hg
          cases answer with
          | none => simp at hg
          | some r =>
              rcases ha with ha | ha
              · cases ha
              · rw [Net.answer, hq] at ha
                exact h.toLedger.count hst hc ht hq hcallee hreq ha.symm hg
        · exact ht.mono (Extends.refl _) hk.le
    | winning v e => trivial
    | leading v e => trivial
  won := by
    intro m e hm
    have hold : (m, e) ∈ net.promoted ∨ m = n ∧ ∃ v, net.elect n = .winning v e := by
      rcases List.mem_append.mp hm with hm | hm
      · exact .inl hm
      · cases he : net.elect n with
        | winning v e' =>
            rw [he] at hm
            obtain ⟨rfl, rfl⟩ : m = n ∧ e = e' := by simpa [Net.promoting] using hm
            exact .inr ⟨rfl, v, rfl⟩
        | _ => simp [he, Net.promoting] at hm
    have hlift : ∀ v, (m, e, v) ∈ net.stood → (∃ votes, v.needed ≤ votes ∧ ∃ l, Tally net.calls m e v l votes) →
        ∃ v, (m, e, v) ∈ (net.advance n answer).stood ∧
          ∃ votes, v.needed ≤ votes ∧ ∃ l, Tally (net.advance n answer).calls m e v l votes := by
      rintro v hv ⟨votes, hvotes, l, ht⟩
      exact ⟨v, List.mem_append_left _ hv, votes, hvotes, l, ht.mono (extends_append _ _) le_rfl⟩
    rcases hold with hold | ⟨rfl, v, he⟩
    · obtain ⟨v, hv, hw⟩ := h.won hold
      exact hlift v hv hw
    · have hp := h.placed m
      rw [he] at hp
      exact hlift v hp.1 hp.2

theorem Inv.step {net net' : Net} {a : Action} (h : net.Inv) (hs : net.Sound a) (hstep : net.step a = some net') :
    net'.Inv := by
  cases a with
  | connect m r =>
      cases hstep
      exact h.setNode m _ net.beats rfl rfl
  | leave m r =>
      cases hstep
      exact h.setNode m _ net.beats rfl rfl
  | heartbeat m r =>
      simp only [Net.step] at hstep
      split at hstep
      · cases hstep
        exact ⟨h.toLedger.keep id rfl fun _ => ⟨rfl, rfl⟩, h.placed, h.won⟩
      · cases hstep
  | receive i =>
      obtain ⟨b, -, rfl⟩ := Option.map_eq_some_iff.mp hstep
      exact h.setNode b.replica _ _ rfl rfl
  | stream n seq appliedSeq =>
      cases hstep
      exact h.setNode n _ net.beats rfl rfl
  | handle k s elapsed =>
      simp only [Net.step] at hstep
      split at hstep
      · cases hstep
      · rename_i c hc
        split at hstep
        · cases hstep
        · rename_i hr
          cases hstep
          exact h.handle hc (by simpa using hr) s elapsed
  | start n s elapsed =>
      simp only [Net.step] at hstep
      split at hstep
      · obtain ⟨r, hr, rfl⟩ := Option.map_eq_some_iff.mp hstep
        rw [Elect.start] at hr
        split at hr
        · cases hr
          refine ⟨h.toLedger.keep gave_send.mp rfl fun _ => ⟨rfl, rfl⟩, ?_, ?_⟩
          · exact Placed.send h.placed (List.Subset.refl _) trivial
          · intro m e hm
            obtain ⟨v, hv, votes, hvotes, l, ht⟩ := h.won hm
            exact ⟨v, hv, votes, hvotes, l, ht.mono (extends_append _ _) le_rfl⟩
        · cases hr
      · cases hstep
  | elect n answered =>
      simp only [Net.step] at hstep
      split at hstep
      · cases hstep
      · split at hstep
        · split at hstep
          · cases hstep
            exact h.advance hs _ (.inr rfl)
          · cases hstep
        · cases hstep
          exact h.advance hs _ (.inl rfl)

theorem one_master_per_epoch (net net' : Net) (as : List Action) (h : net.Quiet) (hs : Runs.Along step Sound net as)
    (hr : Runs.run step net as = some net') : net'.OneMaster :=
  (Runs.invariant (fun hi hp hstep => Inv.step hi hp hstep) h.inv hs hr).oneMaster

/-- A node of a group whose master is `a:1`. -/
def replicaOf (n : String) : Node where
  epoch := 0
  voted := 0
  seq := 0
  appliedSeq := 0
  isReplica := n ≠ "a:1"
  running := n ≠ "a:1"
  master := "a:1"
  advertised := n
  peers := []
  replicas := []

def group : Net where
  node := replicaOf
  elect _ := .idle
  awaited _ := 0
  calls := []
  beats := []
  stood := []
  promoted := []

theorem group_quiet : group.Quiet := ⟨fun _ => rfl, fun _ => rfl, rfl, rfl, rfl⟩

def usual : Settings := ⟨true, 0, 1⟩

/-- `r` and `q` connect to the master, learn of each other, and leave it. -/
def pair (r q : String) : List Action :=
  [.connect "a:1" r, .connect "a:1" q, .heartbeat "a:1" r, .heartbeat "a:1" q, .receive 0, .receive 0,
    .leave "a:1" r, .leave "a:1" q]

/-- `r` replaces the silent master with the vote of `q`; its first call has the
number `k`. -/
def takeOver (r : String) (k : Nat) : List Action :=
  [.start r usual true, .elect r false, .elect r false, .handle (k + 1) usual true, .elect r true, .elect r false,
    .elect r false, .handle (k + 2) usual true, .elect r true, .elect r false]

theorem one_master_per_epoch_sample :
    ∃ net', Runs.run step group (pair "b:1" "c:1" ++ takeOver "b:1" 0) = some net' ∧
      net'.promoted = [("b:1", 1)] ∧ net'.OneMaster :=
  ⟨_, rfl, by decide, one_master_per_epoch group _ (pair "b:1" "c:1" ++ takeOver "b:1" 0) group_quiet
    (by decide) rfl⟩

theorem two_masters_in_one_epoch :
    ∃ net', Runs.run step group
        (pair "b:1" "c:1" ++ pair "d:1" "e:1" ++ takeOver "b:1" 0 ++ takeOver "d:1" 3) = some net' ∧
      net'.promoted = [("b:1", 1), ("d:1", 1)] ∧ ¬ net'.OneMaster := by
  refine ⟨_, rfl, by decide, fun h => ?_⟩
  exact absurd (h "b:1" "d:1" 1 (by decide) (by decide)) (by decide)

end Net

end KivaDb.Failover
