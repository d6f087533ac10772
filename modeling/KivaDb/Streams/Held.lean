import KivaDb.Streams.Claims

namespace KivaDb.Streams

open Resp

/-- A command on the stream of a key. -/
inductive Act
  | add (noMkStream : Bool) (trim : Option Trim) (id : AddId) (fields : List String)
  | del (ids : List Id)
  | trim (t : Trim)
  | setId (id : Id)
  | groupCreate (group : String) (id : Option Id) (entriesRead : Option Int64) (mkStream : Bool)
  | groupSetId (group : String) (id : Option Id) (entriesRead : Option Int64)
  | groupDestroy (group : String)
  | groupCreateConsumer (group consumer : String)
  | groupDelConsumer (group consumer : String)
  | ack (group : String) (ids : List Id)
  | readNew (group consumer : String) (limit : Nat) (noack : Bool)
  | readOwn (group consumer : String) (limit : Nat) (after : Id)
  | pending (group : String) (idle : Int64) (lo hi : Id) (count : Nat) (consumer : Option String)
  | claim (group consumer : String) (minIdle : Int64) (ids : List Id) (opts : List ClaimOption)
  | autoclaim (group consumer : String) (minIdle : Int64) (start : Id) (count : Int64) (justId : Bool)

inductive Answer
  | refused (why : Reply)
  | ok
  | nil
  | id (id : Id)
  | count (n : Nat)
  | entries (found : List (Id × List String))
  | own (found : List (Id × Option (List String)))
  | rows (found : List (Id × String × Int64 × UInt64))
  | swept (next : Id) (claimed : List (Id × List String)) (deleted : List Id)

section

variable {α : Type}

/-- What a command leaves, and answers: a refused one leaves all as it was. -/
def settle (stream : Option Stream) (answer : α → Answer) : Except Reply (Stream × α) → Option Stream × Answer
  | .ok (s, a) => (some s, answer a)
  | .error why => (stream, .refused why)

def settleOk (stream : Option Stream) : Except Reply Stream → Option Stream × Answer
  | .ok s => (some s, .ok)
  | .error why => (stream, .refused why)

/-- A command that counts what it changed, and changes nothing where there is no stream. -/
def settleCount (stream : Option Stream) (f : Stream → Except Reply (Stream × Nat)) : Option Stream × Answer :=
  match stream with
  | none => (none, .count 0)
  | some s => settle (some s) .count (f s)

end

section

variable [Build]

/-- One command; `none` where it ends in a panic. -/
def step (e : Env) (stream : Option Stream) : Act → Option (Option Stream × Answer)
  | .add noMkStream trim id fields =>
      some (match xadd e noMkStream trim id fields stream with
        | .ok none => (stream, .nil)
        | .ok (some (s, id)) => (some s, .id id)
        | .error why => (stream, .refused why))
  | .del ids => some (settleCount stream (xdel e ids))
  | .trim t => some (settleCount stream (xtrim e t))
  | .setId id => some (settleOk stream (xsetid e id stream))
  | .groupCreate group id entriesRead mkStream => some (settleOk stream (xgroupCreate e group id entriesRead mkStream stream))
  | .groupSetId group id entriesRead => some (settleOk stream (xgroupSetId e group id entriesRead stream))
  | .groupDestroy group => some (settleCount stream (xgroupDestroy e group))
  | .groupCreateConsumer group consumer => some (settle stream .count (xgroupCreateConsumer e group consumer stream))
  | .groupDelConsumer group consumer => some (settle stream .count (xgroupDelConsumer e group consumer stream))
  | .ack group ids => some (settleCount stream (xack e group ids))
  | .readNew group consumer limit noack => some (settle stream .entries (readNew e group consumer limit noack stream))
  | .readOwn group consumer limit after => some (settle stream .own (readOwn e group consumer limit after stream))
  | .pending group idle lo hi count consumer =>
      (xpending e group idle lo hi count consumer stream).map fun
        | .ok rows => (stream, .rows rows)
        | .error why => (stream, .refused why)
  | .claim group consumer minIdle ids opts => (xclaim e group consumer minIdle ids opts stream).map (settle stream .entries)
  | .autoclaim group consumer minIdle start count justId =>
      (xautoclaim e group consumer minIdle start count justId stream).map
        (settle stream fun (next, claimed, deleted) => .swept next claimed deleted)

/-- Commands one after the other, each at its own time. -/
def run : List (Env × Act) → Option Stream → Option (Option Stream × List Answer)
  | [], stream => some (stream, [])
  | (e, act) :: acts, stream => do
      let (stream, answer) ← step e stream act
      let (stream, answers) ← run acts stream
      return (stream, answer :: answers)

end

end KivaDb.Streams

namespace KivaDb.Streams

open Std (ExtTreeMap)
open Lib.Fallible Resp

/-- Every pending entry of a group is as `P` says. -/
def Pel.Held (P : Pending → Prop) (pending : Pel) : Prop := ∀ (id : Id) (p : Pending), pending[id]? = some p → P p

/-- Every pending entry of a stream is. -/
def Stream.Held (P : Pending → Prop) (s : Stream) : Prop := ∀ (name : String) (g : Group), s.groups[name]? = some g → Pel.Held P g.pending

section

variable {P : Pending → Prop} {pending pending' : Pel} {id : Id} {p : Pending} {s s' : Stream}

theorem Pel.Held.empty : Pel.Held P ∅ := by
  intro id p hp
  rw [ExtTreeMap.getElem?_empty] at hp
  exact nomatch hp

theorem Pel.Held.insert (h : Pel.Held P pending) (hp : P p) : Pel.Held P (pending.insert id p) := by
  intro i q hq
  rw [ExtTreeMap.getElem?_insert] at hq
  split at hq
  · cases hq
    exact hp
  · exact h i q hq

theorem Pel.Held.erase (h : Pel.Held P pending) : Pel.Held P (pending.erase id) := by
  intro i q hq
  rw [ExtTreeMap.getElem?_erase] at hq
  split at hq
  · exact nomatch hq
  · exact h i q hq

theorem Pel.Held.filter {keep : Id → Pending → Bool} (h : Pel.Held P pending) : Pel.Held P (pending.filter keep) := by
  intro i q hq
  rw [ExtTreeMap.getElem?_filter'] at hq
  exact h i q (Option.filter_eq_some_iff.mp hq).1

theorem Pel.Held.ackAll {ids : List Id} (h : Pel.Held P pending) : Pel.Held P (ackAll ids pending).1 := by
  induction ids generalizing pending with
  | nil => exact h
  | cons id ids ih =>
      rw [Streams.ackAll]
      split
      · exact ih h.erase
      · exact ih h

theorem Pel.Held.deliver {consumer : String} {now : Int64} {new : List (Id × List String)} (h : Pel.Held P pending)
    (hnow : P ⟨consumer, now, 1⟩) : Pel.Held P (deliver consumer now pending new) := by
  induction new generalizing pending with
  | nil => exact h
  | cons x new ih => exact ih (h.insert hnow)

theorem Pel.Held.redeliver {entries : Entries} {now : Int64} {mine : List (Id × Pending)} (h : Pel.Held P pending)
    (hnow : ∀ consumer count, P ⟨consumer, now, count⟩) : Pel.Held P (redeliver entries now pending mine).1 := by
  induction mine generalizing pending with
  | nil => exact h
  | cons x mine ih => exact ih (h.insert (hnow x.2.consumer (x.2.count + 1)))

theorem Stream.Held.empty : Stream.empty.Held P := by
  intro name g hg
  have hnone : Stream.empty.groups[name]? = none := ExtTreeMap.getElem?_empty
  rw [hnone] at hg
  exact nomatch hg

theorem Stream.Held.setGroup {group : String} {g : Group} (h : s.Held P) (hg : Pel.Held P g.pending) : (s.setGroup group g).Held P := by
  intro name g' hg'
  by_cases hname : name = group
  · rw [hname, setGroup_self] at hg'
    cases hg'
    exact hg
  · rw [setGroup_other hname] at hg'
    exact h name g' hg'

theorem Stream.Held.of_groups (h : s.Held P) (heq : s'.groups = s.groups) : s'.Held P := by
  intro name g hg
  rw [heq] at hg
  exact h name g hg

end

/-- A stream after some of its entries have been removed, one after the other. -/
inductive Erased (s : Stream) : Stream → Prop
  | refl : Erased s s
  | erase {t : Stream} {id : Id} (h : Erased s t) (hin : id ∈ t.entries) : Erased s (t.erase id)

section

variable {s t u : Stream}

theorem Erased.trans (h : Erased s t) (h' : Erased t u) : Erased s u := by
  induction h' with
  | refl => exact h
  | erase _ hin ih => exact ih.erase hin

theorem Erased.groups (h : Erased s t) : t.groups = s.groups := by
  induction h with
  | refl => rfl
  | erase _ _ ih => exact ih

theorem deleteAll_erased (ids : List Id) : Erased s (deleteAll ids s).1 := by
  induction ids generalizing s with
  | nil => exact .refl
  | cons id ids ih =>
      rw [deleteAll]
      split
      · next hin => exact (Erased.erase .refl hin).trans ih
      · exact ih

theorem trimFrom_erased (t : Trim) (fuel : Nat) : Erased s (trimFrom t fuel s).1 := by
  induction fuel generalizing s with
  | zero => exact .refl
  | succ fuel ih =>
      rw [trimFrom]
      split
      · exact .refl
      · next first hfirst =>
          dsimp only
          split
          · exact (Erased.erase .refl (ExtTreeMap.minKey?_mem hfirst)).trans ih
          · exact .refl

theorem trim_erased (t : Trim) : Erased s (s.trim t).1 := trimFrom_erased t _

end

section

variable {e : Env} {group : String} {stream : Option Stream} {s s' : Stream} {g : Group}

theorem groupOf_inv (h : groupOf e group stream = .ok (s, g)) : stream = some s ∧ s.groups[group]? = some g := by
  unfold groupOf at h
  split at h
  · exact nomatch h
  · split at h
    · exact nomatch h
    · next hg =>
        cases h
        exact ⟨rfl, hg⟩

theorem groupOf_cases (e : Env) (group : String) (stream : Option Stream) :
    groupOf e group stream = .error (noGroup e group) ∨
      ∃ s g, stream = some s ∧ s.groups[group]? = some g ∧ groupOf e group stream = .ok (s, g) := by
  cases hof : groupOf e group stream with
  | ok r =>
      obtain ⟨hstream, hg⟩ := groupOf_inv hof
      exact .inr ⟨r.1, r.2, hstream, hg, rfl⟩
  | error why =>
      unfold groupOf at hof
      split at hof
      · cases hof
        exact .inl rfl
      · split at hof
        · cases hof
          exact .inl rfl
        · exact nomatch hof

theorem storeIf_inv {r : Stream × Nat} {n : Nat} (h : storeIf e s r = .ok (s', n)) : s' = r.1 ∨ s' = s := by
  obtain ⟨t, count⟩ := r
  unfold storeIf at h
  dsimp only at h
  split at h
  · cases hs : storeStream e t with
    | error why =>
        rw [hs] at h
        exact nomatch h
    | ok stored =>
        rw [hs] at h
        cases h
        exact .inl (storeStream_ok hs)
  · cases h
    exact .inr rfl

theorem nextId_lt {now : Int64} {top id : Id} {arg : AddId} (h : nextId now top arg = .ok id) : top < id := by
  cases arg with
  | auto =>
      unfold nextId at h
      dsimp only at h
      generalize (if 0 ≤ now then now.toUInt64 else (0 : UInt64)) = ms at h
      split at h
      · next hms =>
          cases h
          exact Id.lt_iff.mpr (.inl hms)
      · split at h
        · next hnext =>
            cases h
            exact Id.lt_next hnext
        · exact nomatch h
  | inMs ms =>
      unfold nextId at h
      dsimp only at h
      split at h
      · next hms =>
          cases h
          exact Id.lt_iff.mpr (.inl hms)
      · split at h
        · split at h
          · next hnext =>
              split at h
              · cases h
                exact Id.lt_next hnext
              · exact nomatch h
          · exact nomatch h
        · exact nomatch h
  | exactly i =>
      unfold nextId at h
      dsimp only at h
      split at h
      · exact nomatch h
      · split at h
        · exact nomatch h
        · next hle =>
            cases h
            exact lt_of_not_ge hle

/-- What `XADD` leaves: the entry above all others, less the entries that are trimmed. -/
theorem xadd_inv {noMkStream : Bool} {trim : Option Trim} {arg : AddId} {fields : List String} {id : Id}
    (h : xadd e noMkStream trim arg fields stream = .ok (some (s', id))) :
    nextId e.now (stream.getD .empty).last arg = .ok id ∧ Erased ((stream.getD .empty).add id fields) s' := by
  unfold xadd at h
  split at h
  · exact nomatch h
  · obtain ⟨i, hid, hrest⟩ := except_bind_ok.mp h
    obtain ⟨stored, hstore, heq⟩ := except_bind_ok.mp hrest
    cases heq
    refine ⟨hid, ?_⟩
    rw [storeStream_ok hstore]
    cases trim with
    | none => exact .refl
    | some t => exact trim_erased t

theorem xdel_inv {ids : List Id} {n : Nat} (h : xdel e ids s = .ok (s', n)) : Erased s s' := by
  rcases storeIf_inv h with rfl | rfl
  · exact deleteAll_erased ids
  · exact .refl

theorem xtrim_inv {t : Trim} {n : Nat} (h : xtrim e t s = .ok (s', n)) : Erased s s' := by
  rcases storeIf_inv h with rfl | rfl
  · exact trim_erased t
  · exact .refl

theorem xsetid_inv {id : Id} (h : xsetid e id stream = .ok s') :
    ∃ s, stream = some s ∧ (∀ top, s.entries.maxKey? = some top → top ≤ id) ∧ s' = { s with last := id } := by
  unfold xsetid at h
  cases stream with
  | none => cases h
  | some s =>
      dsimp only at h
      split at h
      · cases h
      · next hle =>
          refine ⟨s, rfl, fun top htop => ?_, storeStream_ok h⟩
          rw [htop, Option.any_some, decide_eq_true_eq] at hle
          exact le_of_not_gt hle

theorem xgroupCreate_inv {id : Option Id} {entriesRead : Option Int64} {mkStream : Bool}
    (h : xgroupCreate e group id entriesRead mkStream stream = .ok s') :
    ∃ g, s' = (stream.getD .empty).setGroup group g ∧ g.last = groupStart (stream.getD .empty) id ∧ g.pending = ∅ ∧
      (entriesRead = none → g.read = if (stream.getD .empty).last ≤ g.last then some (stream.getD .empty).added
        else if g.last = .zero then some 0 else none) := by
  unfold xgroupCreate at h
  split at h
  · exact nomatch h
  · dsimp only at h
    split at h
    · exact nomatch h
    · refine ⟨_, storeStream_ok h, rfl, rfl, fun hnone => ?_⟩
      rw [hnone]

theorem xgroupSetId_inv {id : Option Id} {entriesRead : Option Int64} (h : xgroupSetId e group id entriesRead stream = .ok s') :
    ∃ s g g', stream = some s ∧ s.groups[group]? = some g ∧ s' = s.setGroup group g' ∧ g'.last = groupStart s id ∧
      g'.pending = g.pending ∧ (entriesRead = none → g'.read = if s.last ≤ g'.last then some s.added else none) := by
  obtain ⟨⟨s, g⟩, hof, hstore⟩ := except_bind_ok.mp h
  obtain ⟨hstream, hg⟩ := groupOf_inv hof
  refine ⟨s, g, _, hstream, hg, storeStream_ok hstore, rfl, rfl, fun hnone => ?_⟩
  rw [hnone]

theorem xgroupDestroy_inv {n : Nat} (h : xgroupDestroy e group s = .ok (s', n)) :
    s' = { s with groups := s.groups.erase group } ∨ s' = s := by
  rcases storeIf_inv h with rfl | rfl
  · split
    · exact .inl rfl
    · exact .inr rfl
  · exact .inr rfl

theorem xgroupCreateConsumer_inv {consumer : String} {n : Nat} (h : xgroupCreateConsumer e group consumer stream = .ok (s', n)) :
    ∃ s g, stream = some s ∧ s.groups[group]? = some g ∧
      (s' = s ∨ ∃ consumers, s' = s.setGroup group { g with consumers := consumers }) := by
  obtain ⟨⟨s, g⟩, hof, hrest⟩ := except_bind_ok.mp h
  obtain ⟨hstream, hg⟩ := groupOf_inv hof
  refine ⟨s, g, hstream, hg, ?_⟩
  dsimp only at hrest
  split at hrest
  · cases hrest
    exact .inl rfl
  · obtain ⟨stored, hstore, heq⟩ := except_bind_ok.mp hrest
    cases heq
    exact .inr ⟨_, storeStream_ok hstore⟩

theorem xgroupDelConsumer_inv {consumer : String} {n : Nat} (h : xgroupDelConsumer e group consumer stream = .ok (s', n)) :
    ∃ s g consumers, stream = some s ∧ s.groups[group]? = some g ∧
      s' = s.setGroup group { g with pending := g.pending.filter fun _ p => p.consumer ≠ consumer, consumers := consumers } := by
  obtain ⟨⟨s, g⟩, hof, hrest⟩ := except_bind_ok.mp h
  obtain ⟨hstream, hg⟩ := groupOf_inv hof
  obtain ⟨stored, hstore, heq⟩ := except_bind_ok.mp hrest
  cases heq
  exact ⟨s, g, _, hstream, hg, storeStream_ok hstore⟩

theorem xack_inv {ids : List Id} {n : Nat} (h : xack e group ids s = .ok (s', n)) :
    s' = s ∨ ∃ g, s.groups[group]? = some g ∧ s' = s.setGroup group { g with pending := (ackAll ids g.pending).1 } := by
  unfold xack at h
  split at h
  · cases h
    exact .inl rfl
  · next g hg =>
      rcases storeIf_inv h with rfl | rfl
      · exact .inr ⟨g, hg, rfl⟩
      · exact .inl rfl

/-- A group that has read on: what it knows of how many entries it has read goes up by their number. -/
structure ReadOn (e : Env) (consumer : String) (noack : Bool) (new : List (Id × List String)) (g g' : Group) : Prop where
  last : g'.last = ((new.getLast?).map Prod.fst).getD g.last
  read : g'.read = if new = [] then g.read else g.read.map fun r => r + .ofNat new.length
  pending : g'.pending = if noack then g.pending else deliver consumer e.now g.pending new

theorem readNew_inv {consumer : String} {limit : Nat} {noack : Bool} {new : List (Id × List String)}
    (h : readNew e group consumer limit noack stream = .ok (s', new)) :
    ∃ s g, stream = some s ∧ s.groups[group]? = some g ∧ new = newEntries s g limit ∧
      ((s' = s ∧ new = []) ∨ ∃ g', s' = s.setGroup group g' ∧ ReadOn e consumer noack new g g') := by
  obtain ⟨⟨s, g⟩, hof, hrest⟩ := except_bind_ok.mp h
  obtain ⟨hstream, hg⟩ := groupOf_inv hof
  refine ⟨s, g, hstream, hg, ?_⟩
  dsimp only at hrest
  split at hrest
  · next hnone =>
      cases hrest
      exact ⟨hnone.2.symm, .inl ⟨rfl, rfl⟩⟩
  · obtain ⟨stored, hstore, heq⟩ := except_bind_ok.mp hrest
    cases heq
    refine ⟨rfl, .inr ⟨_, storeStream_ok hstore, ?_⟩⟩
    cases hlast : (newEntries s g limit).getLast? with
    | none =>
        have hnil := List.getLast?_eq_none_iff.mp hlast
        cases noack <;> exact ⟨by rw [hlast]; rfl, by rw [if_pos hnil]; rfl, rfl⟩
    | some x =>
        have hne : newEntries s g limit ≠ [] := by
          intro hnil
          rw [hnil] at hlast
          exact nomatch hlast
        cases noack <;> exact ⟨by rw [hlast]; rfl, by rw [if_neg hne]; rfl, rfl⟩

theorem readOwn_inv {consumer : String} {limit : Nat} {after : Id} {items : List (Id × Option (List String))}
    (h : readOwn e group consumer limit after stream = .ok (s', items)) :
    ∃ s g, stream = some s ∧ s.groups[group]? = some g ∧
      (s' = s ∨ ∃ mine g', s' = s.setGroup group g' ∧ g'.last = g.last ∧ g'.read = g.read ∧
        g'.pending = (redeliver s.entries e.now g.pending mine).1) := by
  obtain ⟨⟨s, g⟩, hof, hrest⟩ := except_bind_ok.mp h
  obtain ⟨hstream, hg⟩ := groupOf_inv hof
  refine ⟨s, g, hstream, hg, ?_⟩
  dsimp only at hrest
  split at hrest
  · cases hrest
    exact .inl rfl
  · obtain ⟨stored, hstore, heq⟩ := except_bind_ok.mp hrest
    cases heq
    exact .inr ⟨_, _, storeStream_ok hstore, rfl, rfl, rfl⟩

/-- A group whose pending entries have changed, and no more than that. -/
def Repended (stream : Option Stream) (group : String) (s' : Stream) : Prop :=
  ∃ s g g', stream = some s ∧ s.groups[group]? = some g ∧ s' = s.setGroup group g' ∧ g'.last = g.last ∧ g'.read = g.read

theorem xclaim_inv [Build] {consumer : String} {minIdle : Int64} {ids : List Id} {opts : List ClaimOption} {out : List (Id × List String)}
    (h : xclaim e group consumer minIdle ids opts stream = some (.ok (s', out))) : Repended stream group s' := by
  rcases groupOf_cases e group stream with hof | ⟨s, g, rfl, hg, -⟩
  · obtain ⟨set, -, hrest⟩ := Option.bind_eq_some_iff.mp h
    rw [hof] at hrest
    exact nomatch hrest
  · obtain ⟨set, pending, -, -, rfl⟩ := xclaim_claimed hg h
    exact ⟨s, g, _, rfl, hg, rfl, rfl, rfl⟩

theorem xautoclaim_inv [Build] {consumer : String} {minIdle count : Int64} {start next : Id} {justId : Bool}
    {out : List (Id × List String)} {deleted : List Id}
    (h : xautoclaim e group consumer minIdle start count justId stream = some (.ok (s', next, out, deleted))) :
    Repended stream group s' := by
  rcases groupOf_cases e group stream with hof | ⟨s, g, rfl, hg, -⟩
  · unfold xautoclaim at h
    rw [hof] at h
    exact nomatch h
  · obtain ⟨window, w, -, -, -, -, -, rfl⟩ := xautoclaim_claimed hg h
    exact ⟨s, g, _, rfl, hg, rfl, rfl, rfl⟩

end

end KivaDb.Streams
