import KivaDb.Failover.Elect
import KivaDb.Lib.Runs

namespace KivaDb.Failover

open Lib

/-- A request for a vote. -/
structure Ballot where
  epoch : UInt64
  candidate : String
  seq : UInt64
  deriving DecidableEq

/-- Where `handle` stands with a request for a vote, between two accesses to what
its node shares. -/
inductive Handler
  | fresh (b : Ballot)
  /-- `epoch()` was read. -/
  | dated (b : Ballot) (epoch : UInt64)
  /-- `voted()` was read too. -/
  | checked (b : Ballot) (epoch voted : UInt64)
  /-- The vote is granted: `set_voted` is next. -/
  | granting (b : Ballot)
  | answering (granted : Bool)
  | answered (granted : Bool) (epoch : UInt64)
  deriving DecidableEq

namespace Handler

def access (s : Settings) (elapsed : Bool) (n : Node) : Handler → Node × Handler
  | fresh b => (n, if s.auto then dated b n.epoch else answering false)
  | dated b epoch => (n, checked b epoch n.voted)
  | checked b epoch voted =>
      (n, if grants epoch voted b.epoch (n.masterSilent elapsed) n.appliedSeq b.seq then granting b else answering false)
  | granting b => (n.setVoted b.epoch, answering true)
  | answering g => (n, answered g n.epoch)
  | answered g epoch => (n, answered g epoch)

/-- With no other thread in between, the accesses make up `handle`. -/
theorem access_alone (s : Settings) (elapsed : Bool) (n : Node) (b : Ballot) :
    ∃ g, n.handle s elapsed (.vote b.epoch b.candidate b.seq) =
        (((fun p => access s elapsed p.1 p.2)^[5] (n, fresh b)).1, .vote g n.epoch) ∧
      ((fun p => access s elapsed p.1 p.2)^[5] (n, fresh b)).2 = answered g n.epoch := by
  rw [Node.handle]
  by_cases ha : s.auto = true
  · by_cases hg : grants n.epoch n.voted b.epoch (n.masterSilent elapsed) n.appliedSeq b.seq = true
    · exact ⟨true, by simp [access, ha, hg, Node.setVoted]⟩
    · exact ⟨false, by simp [access, ha, hg]⟩
  · exact ⟨false, by simp [access, ha]⟩

end Handler

/-- A node with its threads: those of the requests it handles and that of its own
`elect`. `given` keeps the votes it granted, with their epochs. -/
structure Booth where
  node : Node
  elect : Elect
  handlers : List Handler
  given : List (UInt64 × String)
  deriving DecidableEq

namespace Booth

inductive Action
  | request (b : Ballot)
  | handler (i : Nat) (s : Settings) (elapsed : Bool)
  | start (s : Settings) (elapsed : Bool)
  | elect (answer : Option Reply)
  | learn (epoch : UInt64) (nodes : List String)
  | follow (master : String) (epoch : UInt64)
  | stream (seq appliedSeq : UInt64)
  deriving DecidableEq

/-- The vote that an action records, if it records one. -/
def records (d : Booth) : Action → Option (UInt64 × String)
  | .handler i _ _ =>
      match d.handlers[i]? with
      | some (.granting b) => some (b.epoch, b.candidate)
      | _ => none
  | .elect _ => d.elect.ownVote
  | _ => none

def act (d : Booth) : Action → Option Booth
  | .request b => some { d with handlers := d.handlers ++ [.fresh b] }
  | .handler i s elapsed =>
      (d.handlers[i]?).map fun h =>
        let r := h.access s elapsed d.node
        { d with node := r.1, handlers := d.handlers.set i r.2 }
  | .start s elapsed =>
      if d.elect = .idle then (Elect.start s elapsed d.node).map fun r => { d with elect := r.1 } else none
  | .elect answer =>
      let r := d.elect.step answer d.node
      some { d with node := r.1, elect := r.2.1 }
  | .learn epoch nodes => some { d with node := d.node.learn epoch nodes }
  | .follow master epoch => some { d with node := d.node.followNewMaster master epoch }
  | .stream seq appliedSeq => some { d with node := { d.node with seq, appliedSeq } }

def step (d : Booth) (a : Action) : Option Booth :=
  (d.act a).map fun d' => { d' with given := d.given ++ (d.records a).toList }

/-- Nobody has asked for a vote yet. -/
def Quiet (d : Booth) : Prop := d.elect = .idle ∧ d.handlers = [] ∧ d.given = []

/-- In each epoch the vote went to one candidate. -/
def OneVote (d : Booth) : Prop := ∀ e c c', (e, c) ∈ d.given → (e, c') ∈ d.given → c = c'

def Rises (d : Booth) (a : Action) : Prop := ∀ d', d.step a = some d' → d.node.voted ≤ d'.node.voted

/-- Where a vote is recorded, no vote of a later epoch has been, nor one of this
epoch for another candidate. -/
def Timely (d : Booth) (a : Action) : Prop :=
  ∀ e c, d.records a = some (e, c) →
    d.node.voted < e ∨ d.node.voted = e ∧ ∀ c', (e, c') ∈ d.given → c' = c

instance (d : Booth) (a : Action) : Decidable (d.Timely a) :=
  match h : d.records a with
  | none => isTrue (by simp [Timely, h])
  | some (e, c) =>
      decidable_of_iff (d.node.voted < e ∨ d.node.voted = e ∧ ∀ p ∈ d.given, p.1 = e → p.2 = c) (by
        simp only [Timely, h, Option.some.injEq, Prod.mk.injEq, and_imp, Prod.forall]
        constructor
        · rintro hp _ _ rfl rfl
          exact hp.imp id fun hp => ⟨hp.1, fun c' hc => hp.2 e c' hc rfl⟩
        · intro hp
          exact (hp e c rfl rfl).imp id fun hp => ⟨hp.1, fun e' c' hc he => hp.2 c' (he ▸ hc)⟩)

theorem step_given {d d' : Booth} {a : Action} (h : d.step a = some d') :
    d'.given = d.given ++ (d.records a).toList := by
  obtain ⟨r, -, rfl⟩ := Option.map_eq_some_iff.mp h
  rfl

/-- The recorded vote is what the action records, and the last one otherwise. -/
theorem step_voted {d d' : Booth} {a : Action} (h : d.step a = some d') :
    d'.node.voted = ((d.records a).map Prod.fst).getD d.node.voted := by
  obtain ⟨r, hr, rfl⟩ := Option.map_eq_some_iff.mp h
  cases a with
  | request b =>
      cases hr
      rfl
  | handler i s elapsed =>
      obtain ⟨t, ht, rfl⟩ := Option.map_eq_some_iff.mp hr
      simp only [records, ht]
      cases t with
      | granting b => rfl
      | fresh b => rfl
      | dated b e => rfl
      | checked b e v => rfl
      | answering g => rfl
      | answered g e => rfl
  | start s elapsed =>
      simp only [act] at hr
      split at hr
      · obtain ⟨q, -, rfl⟩ := Option.map_eq_some_iff.mp hr
        rfl
      · cases hr
  | elect answer =>
      cases hr
      exact (Elect.step_frame answer d.node d.elect).1
  | learn epoch nodes =>
      cases hr
      rfl
  | follow master epoch =>
      cases hr
      exact Node.followNewMaster_voted _ _ _
  | stream seq appliedSeq =>
      cases hr
      rfl

/-- What holds between the recorded vote and the votes given. -/
structure Recorded (d : Booth) : Prop where
  once : d.OneVote
  bound : ∀ e c, (e, c) ∈ d.given → e ≤ d.node.voted

theorem Quiet.recorded {d : Booth} (h : d.Quiet) : d.Recorded := by
  constructor
  · intro e c c' hc
    rw [h.2.2] at hc
    cases hc
  · intro e c hc
    rw [h.2.2] at hc
    cases hc

theorem Timely.rises {d : Booth} {a : Action} (h : d.Timely a) : d.Rises a := by
  intro d' hs
  rw [step_voted hs]
  cases hr : d.records a with
  | none => exact UInt64.le_rfl
  | some p =>
      rcases h p.1 p.2 hr with hlt | ⟨heq, -⟩
      · exact UInt64.le_of_lt hlt
      · exact UInt64.le_of_eq heq

theorem Recorded.next {d d' : Booth} {a : Action} (h : d.Recorded) (ht : d.Timely a) (hs : d.step a = some d') :
    d'.Recorded := by
  have hv := step_voted hs
  have hg := step_given hs
  have hrise := ht.rises d' hs
  cases hr : d.records a with
  | none =>
      rw [hr] at hg
      have hg' : d'.given = d.given := by simpa using hg
      constructor
      · intro e c c' hc hc'
        rw [hg'] at hc hc'
        exact h.once e c c' hc hc'
      · intro e c hc
        rw [hg'] at hc
        exact UInt64.le_trans (h.bound e c hc) hrise
  | some p =>
      obtain ⟨e, c⟩ := p
      rw [hr] at hg hv
      have hmem : ∀ {e' c'}, (e', c') ∈ d'.given ↔ (e', c') ∈ d.given ∨ e' = e ∧ c' = c := by
        intro e' c'
        rw [hg]
        simp
      have hsame : ∀ c', (e, c') ∈ d.given → c' = c := by
        intro c' hc'
        rcases ht e c hr with hlt | ⟨-, hall⟩
        · exact absurd (h.bound e c' hc') (UInt64.not_le.mpr hlt)
        · exact hall c' hc'
      constructor
      · intro e' c1 c2 h1 h2
        rcases hmem.mp h1 with h1 | ⟨rfl, rfl⟩
        · rcases hmem.mp h2 with h2 | ⟨rfl, rfl⟩
          · exact h.once e' c1 c2 h1 h2
          · exact hsame c1 h1
        · rcases hmem.mp h2 with h2 | ⟨-, rfl⟩
          · exact (hsame c2 h2).symm
          · rfl
      · intro e' c' hc
        rcases hmem.mp hc with hc | ⟨rfl, -⟩
        · exact UInt64.le_trans (h.bound e' c' hc) hrise
        · rw [hv]
          exact UInt64.le_rfl

/-- `handle` gets to its next access for the `i`th request. -/
def goOn (i : Nat) : Action := .handler i ⟨true, 0, 1⟩ true

/-- The request of a later epoch is granted between the check and the vote of an
earlier one. -/
def back : List Action :=
  [.request ⟨1, "c:1", 0⟩, .request ⟨2, "d:1", 0⟩, goOn 0, goOn 1, goOn 0, goOn 1, goOn 0, goOn 1, goOn 1, goOn 0]

end Booth

end KivaDb.Failover
