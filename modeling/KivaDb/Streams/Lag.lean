import KivaDb.Streams.Held

namespace KivaDb.Streams

open Std (ExtTreeMap)
open Lib.Fallible Resp

/-- The entries of a stream beyond an id. -/
def Stream.beyond (s : Stream) (last : Id) : List Id := s.entries.keys.filter fun id => last < id

/-- The counters of a stream tell of the ids that were ever added to it, newest first. -/
structure Counts (added : List Id) (s : Stream) : Prop where
  sorted : added.Pairwise fun a b => b < a
  below : ∀ id ∈ added, .zero < id ∧ id ≤ s.last
  present : ∀ id ∈ s.entries, id ∈ added
  deleted : ∀ id ∈ added, id ∉ s.entries → id ≤ s.maxDeleted
  length : s.added.toNat = added.length
  read : ∀ (name : String) (g : Group) (r : UInt64), s.groups[name]? = some g → g.read = some r →
    r.toNat = added.countP (· ≤ g.last)

section

variable {added : List Id} {s t : Stream} {g g' : Group} {group : String}

theorem Counts.empty : Counts [] Stream.empty := by
  refine ⟨.nil, nofun, fun id hid => ?_, nofun, rfl, fun name g r hg => ?_⟩
  · exact absurd hid ExtTreeMap.not_mem_empty
  · have hnone : Stream.empty.groups[name]? = none := ExtTreeMap.getElem?_empty
    rw [hnone] at hg
    exact nomatch hg

theorem Counts.nodup (h : Counts added s) : added.Nodup := h.sorted.imp fun {_ _} hlt => (ne_of_lt hlt).symm

theorem Counts.erase {id : Id} (h : Counts added s) : Counts added (s.erase id) := by
  refine ⟨h.sorted, h.below, fun i hi => ?_, fun i hi hnot => ?_, h.length, h.read⟩
  · exact h.present i (ExtTreeMap.mem_of_mem_erase hi)
  · by_cases heq : i = id
    · exact heq ▸ le_max_right _ _
    · refine (h.deleted i hi fun hin => hnot ?_).trans (le_max_left _ _)
      exact ExtTreeMap.mem_erase.mpr ⟨fun hcmp => heq (compare_eq_iff_eq.mp hcmp).symm, hin⟩

theorem Counts.erased (h : Counts added s) (herased : Erased s t) : Counts added t := by
  induction herased with
  | refl => exact h
  | erase _ _ ih => exact ih.erase

/-- A new entry above all that any group is known to have read. -/
theorem Counts.add {id : Id} {fields : List String} (h : Counts added s) (hid : s.last < id)
    (hread : ∀ (name : String) (g : Group), s.groups[name]? = some g → g.read ≠ none → g.last < id)
    (hlength : added.length + 1 < 2 ^ 64) : Counts (id :: added) (s.add id fields) := by
  have hlen := h.length
  have hone : (1 : UInt64).toNat = 1 := rfl
  refine ⟨List.pairwise_cons.mpr ⟨fun i hi => (h.below i hi).2.trans_lt hid, h.sorted⟩, ?_, ?_, ?_, ?_, ?_⟩
  · refine List.forall_mem_cons.mpr ⟨⟨(Id.zero_le s.last).trans_lt hid, le_rfl⟩, fun i hi => ?_⟩
    exact ⟨(h.below i hi).1, ((h.below i hi).2.trans_lt hid).le⟩
  · intro i hi
    rcases ExtTreeMap.mem_insert.mp hi with heq | hin
    · exact List.mem_cons.mpr (.inl (compare_eq_iff_eq.mp heq).symm)
    · exact List.mem_cons_of_mem _ (h.present i hin)
  · refine List.forall_mem_cons.mpr ⟨fun hnot => absurd ExtTreeMap.mem_insert_self hnot, fun i hi hnot => ?_⟩
    exact h.deleted i hi fun hin => hnot (ExtTreeMap.mem_insert.mpr (.inr hin))
  · rw [Stream.add, UInt64.toNat_add, hone, hlen, List.length_cons]
    omega
  · intro name g r hg hr
    have hlt := hread name g hg fun hnone => by
      rw [hr] at hnone
      exact nomatch hnone
    rw [List.countP_cons_of_neg (by simpa using hlt), h.read name g r hg hr]

theorem Counts.setGroup (h : Counts added s) (hg' : ∀ r, g'.read = some r → r.toNat = added.countP (· ≤ g'.last)) :
    Counts added (s.setGroup group g') := by
  refine ⟨h.sorted, h.below, h.present, h.deleted, h.length, fun name g r hg hr => ?_⟩
  by_cases hname : name = group
  · rw [hname, setGroup_self] at hg
    cases hg
    exact hg' r hr
  · rw [setGroup_other hname] at hg
    exact h.read name g r hg hr

/-- What a group has read is counted by where it stands. -/
theorem Counts.setGroup_same (h : Counts added s) (hg : s.groups[group]? = some g) (hlast : g'.last = g.last) (hread : g'.read = g.read) :
    Counts added (s.setGroup group g') := by
  refine h.setGroup fun r hr => ?_
  rw [hlast]
  exact h.read group g r hg (hread ▸ hr)

theorem Counts.countP_last (h : Counts added s) {last : Id} (hlast : s.last ≤ last) : s.added.toNat = added.countP (· ≤ last) := by
  rw [h.length, eq_comm, List.countP_eq_length]
  intro i hi
  exact decide_eq_true ((h.below i hi).2.trans hlast)

theorem Counts.countP_zero (h : Counts added s) : added.countP (· ≤ Id.zero) = 0 := by
  rw [List.countP_eq_zero]
  intro i hi hle
  exact absurd (of_decide_eq_true hle) (not_le_of_gt (h.below i hi).1)

theorem countP_le_add_lt (l : List Id) (last : Id) : l.countP (· ≤ last) + l.countP (last < ·) = l.length := by
  rw [List.length_eq_countP_add_countP fun id => decide (id ≤ last)]
  congr 1
  apply List.countP_congr
  intro i _
  simp

/-- Where none of the entries beyond a group was deleted, they are as many as were added beyond it. -/
theorem Counts.length_beyond (h : Counts added s) {last : Id} (hall : ∀ id ∈ added, last < id → id ∈ s.entries) :
    (s.beyond last).length = added.countP (last < ·) := by
  rw [List.countP_eq_length_filter]
  apply List.Perm.length_eq
  have hkeys : s.entries.keys.Nodup := ExtTreeMap.nodup_keys
  refine (List.perm_ext_iff_of_nodup (hkeys.filter _) (h.nodup.filter _)).mpr fun id => ?_
  rw [List.mem_filter, List.mem_filter, ExtTreeMap.mem_keys, decide_eq_true_eq]
  exact ⟨fun hid => ⟨h.present id hid.1, hid.2⟩, fun hid => ⟨hall id hid.1 hid.2, hid.2⟩⟩

theorem Counts.lag {n : UInt64} (h : Counts added s) (hg : s.groups[group]? = some g) (hlag : s.lag g = some n) :
    n.toNat = (s.beyond g.last).length := by
  unfold Stream.lag at hlag
  split at hlag
  · next hempty =>
      cases hlag
      have hkeys : s.entries.keys = [] := by
        rw [ExtTreeMap.isEmpty_iff.mp hempty]
        rfl
      rw [Stream.beyond, hkeys]
      rfl
  · split at hlag
    · next hle =>
        cases hlag
        have hnil : s.beyond g.last = [] := by
          rw [Stream.beyond, List.filter_eq_nil_iff]
          intro i hi hlt
          have hin := (h.below i (h.present i (ExtTreeMap.mem_keys.mp hi))).2
          exact absurd (of_decide_eq_true hlt) (not_lt_of_ge (hin.trans hle))
        rw [hnil]
        rfl
    · split at hlag
      · exact nomatch hlag
      · next hexact =>
          obtain ⟨r, hr, rfl⟩ := Option.map_eq_some_iff.mp hlag
          have hread := h.read group g r hg hr
          have hmax : s.maxDeleted ≤ g.last := le_of_not_gt fun hlt => hexact (.inl hlt)
          have hsplit := countP_le_add_lt added g.last
          have hlen := h.length
          rw [h.length_beyond fun id hid hlt => by_contra fun hnot => absurd ((h.deleted id hid hnot).trans hmax) (not_le_of_gt hlt)]
          have hle : r ≤ s.added := UInt64.le_iff_toNat_le.mpr (by omega)
          rw [if_pos hle, UInt64.toNat_sub_of_le _ _ hle]
          omega

theorem mem_newEntries {limit : Nat} {x : Id × List String} (h : x ∈ newEntries s g limit) :
    s.entries[x.1]? = some x.2 ∧ g.last < x.1 := by
  unfold newEntries at h
  split at h
  · next start hstart =>
      obtain ⟨hx, hle⟩ := mem_range h
      exact ⟨hx, (Id.next_some hstart).mp hle⟩
  · exact nomatch h

theorem newEntries_sorted {limit : Nat} : (newEntries s g limit).Pairwise fun a b => a.1 < b.1 := by
  unfold newEntries
  split
  · exact range_sorted
  · exact .nil

theorem newEntries_last {limit : Nat} {x y : Id × List String} (h : (newEntries s g limit).getLast? = some x)
    (hy : y ∈ newEntries s g limit) : y.1 ≤ x.1 := by
  obtain ⟨before, heq⟩ := List.getLast?_eq_some_iff.mp h
  have hsorted : (newEntries s g limit).Pairwise fun a b => a.1 < b.1 := newEntries_sorted
  rw [heq] at hy hsorted
  rcases List.mem_append.mp hy with hbefore | hlast
  · exact ((List.pairwise_append.mp hsorted).2.2 y hbefore x (List.mem_singleton.mpr rfl)).le
  · rw [List.mem_singleton.mp hlast]

/-- The entries up to the last that is read are read. -/
theorem newEntries_complete {limit : Nat} {id : Id} (hin : id ∈ s.entries) (hlt : g.last < id)
    (hbefore : ∃ x ∈ newEntries s g limit, id ≤ x.1) : id ∈ (newEntries s g limit).map Prod.fst := by
  obtain ⟨x, hx, hle⟩ := hbefore
  by_contra hnot
  cases hnext : g.last.next with
  | none =>
      have hnil : newEntries s g limit = [] := by rw [newEntries, hnext]
      rw [hnil] at hx
      exact nomatch hx
  | some start =>
      have heq : newEntries s g limit = range s.entries start limit := by rw [newEntries, hnext]
      rw [heq] at hx hnot
      obtain ⟨fields, hfields⟩ := Option.isSome_iff_exists.mp (ExtTreeMap.mem_iff_isSome_getElem?.mp hin)
      obtain ⟨-, hall⟩ := range_complete hfields ((Id.next_some hnext).mpr hlt) fun hmem =>
        hnot (List.mem_map.mpr ⟨(id, fields), hmem, rfl⟩)
      exact absurd (hall x hx) (not_lt_of_ge hle)

theorem countP_le_split (l : List Id) {lo hi : Id} (h : lo ≤ hi) :
    l.countP (· ≤ hi) = l.countP (· ≤ lo) + l.countP fun id => lo < id ∧ id ≤ hi := by
  induction l with
  | nil => rfl
  | cons id l ih =>
      rw [List.countP_cons, List.countP_cons, List.countP_cons, ih]
      by_cases hlo : id ≤ lo
      · simp [hlo, hlo.trans h, not_lt_of_ge hlo]
        omega
      · simp [hlo, lt_of_not_ge hlo]
        omega

/-- A group that reads on without passing over a deleted entry counts what it passes. -/
theorem Counts.readOn {e : Env} {consumer : String} {limit : Nat} {noack : Bool} (h : Counts added s) (hg : s.groups[group]? = some g)
    (hon : ReadOn e consumer noack (newEntries s g limit) g g')
    (hall : g.read ≠ none → ∀ id ∈ added, g.last < id → (∃ x ∈ newEntries s g limit, id ≤ x.1) → id ∈ s.entries) :
    Counts added (s.setGroup group g') := by
  cases hlast : (newEntries s g limit).getLast? with
  | none =>
      have hread := hon.read
      have hto := hon.last
      rw [if_pos (List.getLast?_eq_none_iff.mp hlast)] at hread
      rw [hlast] at hto
      exact h.setGroup_same hg hto hread
  | some x =>
      have hx := List.mem_of_getLast? hlast
      have hread := hon.read
      have hto := hon.last
      rw [if_neg (List.ne_nil_of_mem hx)] at hread
      rw [hlast] at hto
      have hlt := (mem_newEntries hx).2
      refine h.setGroup fun r' hr' => ?_
      rw [hread] at hr'
      obtain ⟨r, hr, rfl⟩ := Option.map_eq_some_iff.mp hr'
      have hpassed : (newEntries s g limit).length = added.countP fun id => g.last < id ∧ id ≤ x.1 := by
        rw [List.countP_eq_length_filter, ← List.length_map Prod.fst]
        apply List.Perm.length_eq
        have hnodup : ((newEntries s g limit).map Prod.fst).Nodup :=
          List.pairwise_map.mpr (newEntries_sorted.imp fun {_ _} hlt => ne_of_lt hlt)
        refine (List.perm_ext_iff_of_nodup hnodup (h.nodup.filter _)).mpr fun id => ?_
        rw [List.mem_filter, decide_eq_true_eq]
        constructor
        · intro hid
          obtain ⟨y, hy, rfl⟩ := List.mem_map.mp hid
          obtain ⟨hentry, hbeyond⟩ := mem_newEntries hy
          refine ⟨h.present _ (ExtTreeMap.mem_iff_isSome_getElem?.mpr (Option.isSome_of_eq_some hentry)), hbeyond, ?_⟩
          exact newEntries_last hlast hy
        · rintro ⟨hid, hbeyond, hle⟩
          have hsome : g.read ≠ none := fun hnone => by
            rw [hr] at hnone
            exact nomatch hnone
          exact newEntries_complete (hall hsome id hid hbeyond ⟨x, hx, hle⟩) hbeyond ⟨x, hx, hle⟩
      have hcount := h.read group g r hg hr
      have hsplit := countP_le_split added hlt.le
      have hbound := List.countP_le_length (p := fun id => decide (id ≤ x.1)) (l := added)
      have hlen := h.length
      have hmax := s.added.toNat_lt
      rw [hto, Option.map_some, Option.getD_some, hsplit, UInt64.toNat_add, hcount, UInt64.toNat_ofNat', hpassed]
      omega

end

/-- The commands that neither set the last id of the stream nor tell what a group has read. -/
def Act.Counted : Act → Prop
  | .setId _ => False
  | .groupCreate _ _ entriesRead _ => entriesRead = none
  | .groupSetId _ _ entriesRead => entriesRead = none
  | _ => True

/-- No entry is added below where a group stands, and no group reads past an entry that was deleted. -/
def Act.Straight (e : Env) (added : List Id) (s : Stream) : Act → Prop
  | .add _ _ arg _ => added.length + 1 < 2 ^ 64 ∧ ∀ id, nextId e.now s.last arg = .ok id →
      ∀ (name : String) (g : Group), s.groups[name]? = some g → g.read ≠ none → g.last < id
  | .readNew group _ limit _ => ∀ g, s.groups[group]? = some g → g.read ≠ none → ∀ id ∈ added, g.last < id →
      (∃ x ∈ newEntries s g limit, id ≤ x.1) → id ∈ s.entries
  | _ => True

/-- The id of an entry that was added. -/
def Answer.added : Answer → List Id
  | .id i => [i]
  | _ => []

section

variable {added : List Id} {stream : Option Stream}

theorem settle_counts {α : Type} {f : α → Answer} {r : Except Reply (Stream × α)} (hf : ∀ a, (f a).added = [])
    (h : Counts added (stream.getD .empty)) (hstored : ∀ s a, r = .ok (s, a) → Counts added s) :
    Counts ((settle stream f r).2.added ++ added) ((settle stream f r).1.getD .empty) := by
  cases r with
  | error why =>
      rw [settle]
      exact h
  | ok x =>
      rw [settle, hf]
      exact hstored x.1 x.2 rfl

theorem settleOk_counts {r : Except Reply Stream} (h : Counts added (stream.getD .empty))
    (hstored : ∀ s, r = .ok s → Counts added s) :
    Counts ((settleOk stream r).2.added ++ added) ((settleOk stream r).1.getD .empty) := by
  cases r with
  | error why => exact h
  | ok x => exact hstored x rfl

theorem settleCount_counts {f : Stream → Except Reply (Stream × Nat)} (h : Counts added (stream.getD .empty))
    (hstored : ∀ s s' n, Counts added s → f s = .ok (s', n) → Counts added s') :
    Counts ((settleCount stream f).2.added ++ added) ((settleCount stream f).1.getD .empty) := by
  cases stream with
  | none => exact h
  | some s => exact settle_counts (fun _ => rfl) h fun s' n hok => hstored s s' n h hok

end

section

variable [Build]

/-- The streams of a run, with the ids added so far, newest first. -/
inductive Reached : List Id → Option Stream → Prop
  | start : Reached [] none
  | step {added : List Id} {stream stream' : Option Stream} {e : Env} {act : Act} {answer : Answer} (h : Reached added stream)
      (hcounted : act.Counted) (hstraight : act.Straight e added (stream.getD .empty))
      (hstep : step e stream act = some (stream', answer)) : Reached (answer.added ++ added) stream'

variable {e : Env} {added : List Id} {stream : Option Stream}

/-- The counters tell of the ids after one more command. -/
theorem step_counts {act : Act} (h : Counts added (stream.getD .empty)) (hcounted : act.Counted)
    (hstraight : act.Straight e added (stream.getD .empty)) {r : Option Stream × Answer} (hstep : step e stream act = some r) :
    Counts (r.2.added ++ added) (r.1.getD .empty) := by
  cases act with
  | add noMkStream trim arg fields =>
      cases hstep
      cases hadd : xadd e noMkStream trim arg fields stream with
      | error why => exact h
      | ok found =>
          cases found with
          | none => exact h
          | some x =>
              obtain ⟨hid, herased⟩ := xadd_inv hadd
              exact (h.add (nextId_lt hid) (hstraight.2 x.2 hid) hstraight.1).erased herased
  | del ids =>
      cases hstep
      exact settleCount_counts h fun s s' n hs hok => hs.erased (xdel_inv hok)
  | trim t =>
      cases hstep
      exact settleCount_counts h fun s s' n hs hok => hs.erased (xtrim_inv hok)
  | setId id => exact hcounted.elim
  | groupCreate group id entriesRead mkStream =>
      cases hstep
      refine settleOk_counts h fun s' hok => ?_
      obtain ⟨g, rfl, -, -, hread⟩ := xgroupCreate_inv hok
      refine h.setGroup fun r hr => ?_
      rw [hread hcounted] at hr
      split at hr
      · next hle =>
          cases hr
          exact h.countP_last hle
      · split at hr
        · next hzero =>
            cases hr
            rw [hzero, h.countP_zero]
            rfl
        · exact nomatch hr
  | groupSetId group id entriesRead =>
      cases hstep
      refine settleOk_counts h fun s' hok => ?_
      obtain ⟨s, g, g', rfl, -, rfl, -, -, hread⟩ := xgroupSetId_inv hok
      refine h.setGroup fun r hr => ?_
      rw [hread hcounted] at hr
      split at hr
      · next hle =>
          cases hr
          exact h.countP_last hle
      · exact nomatch hr
  | groupDestroy group =>
      cases hstep
      refine settleCount_counts h fun s s' n hs hok => ?_
      rcases xgroupDestroy_inv hok with rfl | rfl
      · refine ⟨hs.sorted, hs.below, hs.present, hs.deleted, hs.length, fun name g r hg hr => ?_⟩
        rw [ExtTreeMap.getElem?_erase] at hg
        split at hg
        · exact nomatch hg
        · exact hs.read name g r hg hr
      · exact hs
  | groupCreateConsumer group consumer =>
      cases hstep
      refine settle_counts (fun _ => rfl) h fun s' n hok => ?_
      obtain ⟨s, g, rfl, hg, rfl | ⟨consumers, rfl⟩⟩ := xgroupCreateConsumer_inv hok
      · exact h
      · exact h.setGroup_same hg rfl rfl
  | groupDelConsumer group consumer =>
      cases hstep
      refine settle_counts (fun _ => rfl) h fun s' n hok => ?_
      obtain ⟨s, g, consumers, rfl, hg, rfl⟩ := xgroupDelConsumer_inv hok
      exact h.setGroup_same hg rfl rfl
  | ack group ids =>
      cases hstep
      refine settleCount_counts h fun s s' n hs hok => ?_
      obtain rfl | ⟨g, hg, rfl⟩ := xack_inv hok
      · exact hs
      · exact hs.setGroup_same hg rfl rfl
  | readNew group consumer limit noack =>
      cases hstep
      refine settle_counts (fun _ => rfl) h fun s' new hok => ?_
      obtain ⟨s, g, rfl, hg, rfl, ⟨rfl, -⟩ | ⟨g', rfl, hread⟩⟩ := readNew_inv hok
      · exact h
      · exact h.readOn hg hread (hstraight g hg)
  | readOwn group consumer limit after =>
      cases hstep
      refine settle_counts (fun _ => rfl) h fun s' items hok => ?_
      obtain ⟨s, g, rfl, hg, rfl | ⟨mine, g', rfl, hlast, hread, -⟩⟩ := readOwn_inv hok
      · exact h
      · exact h.setGroup_same hg hlast hread
  | pending group idle lo hi count consumer =>
      obtain ⟨r, -, heq⟩ := Option.map_eq_some_iff.mp hstep
      cases r <;> cases heq <;> exact h
  | claim group consumer minIdle ids opts =>
      obtain ⟨r, hr, heq⟩ := Option.map_eq_some_iff.mp hstep
      cases heq
      refine settle_counts (fun _ => rfl) h fun s' out hok => ?_
      obtain ⟨s, g, g', rfl, hg, rfl, hlast, hread⟩ := xclaim_inv (hok ▸ hr)
      exact h.setGroup_same hg hlast hread
  | autoclaim group consumer minIdle start count justId =>
      obtain ⟨r, hr, heq⟩ := Option.map_eq_some_iff.mp hstep
      cases heq
      refine settle_counts (fun _ => rfl) h fun s' a hok => ?_
      obtain ⟨s, g, g', rfl, hg, rfl, hlast, hread⟩ := xautoclaim_inv (hok ▸ hr)
      exact h.setGroup_same hg hlast hread

theorem Reached.counts (h : Reached added stream) : Counts added (stream.getD .empty) := by
  induction h with
  | start => exact .empty
  | step _ hcounted hstraight hstep ih => exact step_counts ih hcounted hstraight hstep

/-- In every state of a run, a lag that is given is the number of entries beyond the group. -/
theorem lag_exact {s : Stream} {g : Group} {group : String} {n : UInt64} (h : Reached added (some s)) (hg : s.groups[group]? = some g)
    (hlag : s.lag g = some n) : n.toNat = (s.beyond g.last).length :=
  h.counts.lag hg hlag

end

section Samples

local instance lagBuild : Build := ⟨true⟩

def addAt (ms : UInt64) : Act := .add false none (.exactly ⟨ms, 0⟩) ["task", "a"]

/-- A group ahead of its stream, which is then written to behind it. -/
def createdAhead : List Act := [addAt 5, .groupCreate "workers" (some ⟨1000, 0⟩) none false, addAt 6, addAt 1001]

/-- A group that reads past an entry that was deleted. -/
def readPast : List Act :=
  [addAt 1, addAt 2, addAt 3, .groupCreate "workers" (some .zero) none false, .del [⟨2, 0⟩], .readNew "workers" "ada" 10 false, addAt 4]

theorem lag_of_keys {s : Stream} {g : Group} {first : Id} {rest : List Id} (hkeys : s.entries.keys = first :: rest)
    (hlast : g.last < s.last) (hmax : s.maxDeleted ≤ g.last) (hfirst : first ≤ g.last ∨ g.last = .zero) :
    s.lag g = g.read.map fun r => if r ≤ s.added then s.added - r else 0 := by
  have hmin : s.entries.minKey? = some first := by rw [ExtTreeMap.minKey?_eq_head?_keys, hkeys, List.head?_cons]
  have hempty : ¬ s.entries.isEmpty = true := by
    rw [ExtTreeMap.isEmpty_iff]
    intro hnil
    rw [hnil] at hkeys
    exact nomatch hkeys
  unfold Stream.lag
  rw [if_neg hempty, if_neg (not_le_of_gt hlast), if_neg]
  rintro (hlt | ⟨hany, hne⟩)
  · exact absurd hlt (not_lt_of_ge hmax)
  · rw [hmin, Option.any_some, decide_eq_true_eq] at hany
    exact hfirst.elim (fun hle => absurd hany (not_lt_of_ge hle)) hne

/-- What the lag of the group is computed from after a run: what the stream holds, and where the group stands. -/
def countersAfter (acts : List Act) : Option ((List Id × Id × UInt64 × Id) × Id × Option UInt64) := do
  let r ← run (acts.map fun act => (claimsEnv, act)) none
  let s ← r.1
  let g ← s.groups["workers"]?
  return ((s.entries.keys, s.last, s.added, s.maxDeleted), g.last, g.read)

theorem lag_of_countersAfter (acts : List Act) (first : Id) (rest : List Id) (last : Id) (added : UInt64) (maxDeleted glast : Id) (read : UInt64)
    (h : countersAfter acts = some ((first :: rest, last, added, maxDeleted), glast, some read))
    (hlast : glast < last) (hmax : maxDeleted ≤ glast) (hfirst : first ≤ glast ∨ glast = .zero) :
    ∃ s answers g, run (acts.map fun act => (claimsEnv, act)) none = some (some s, answers) ∧ s.groups["workers"]? = some g ∧
      s.lag g = some (if read ≤ added then added - read else 0) ∧ s.beyond g.last = (first :: rest).filter fun id => glast < id := by
  obtain ⟨⟨stream, answers⟩, hrun, hrest⟩ := Option.bind_eq_some_iff.mp h
  obtain ⟨s, hs, hrest⟩ := Option.bind_eq_some_iff.mp hrest
  obtain ⟨g, hg, heq⟩ := Option.bind_eq_some_iff.mp hrest
  have hpair := Option.some.inj heq
  have hkeys : s.entries.keys = first :: rest := congrArg (fun x => x.1.1) hpair
  have hglast : g.last = glast := congrArg (fun x => x.2.1) hpair
  have hslast : s.last = last := congrArg (fun x => x.1.2.1) hpair
  have hadded : s.added = added := congrArg (fun x => x.1.2.2.1) hpair
  have hdeleted : s.maxDeleted = maxDeleted := congrArg (fun x => x.1.2.2.2) hpair
  have hread : g.read = some read := congrArg (fun x => x.2.2) hpair
  refine ⟨s, answers, g, hs ▸ hrun, hg, ?_, ?_⟩
  · rw [lag_of_keys hkeys (by rwa [hglast, hslast]) (by rwa [hglast, hdeleted]) (by rwa [hglast]), hread, hadded, Option.map_some]
  · rw [Stream.beyond, hkeys, hglast]

/-- Of one entry beyond the group, the lag says two. -/
def SaysTwo (acts : List Act) : Prop :=
  (∀ act ∈ acts, act.Counted) ∧
    ∃ s answers g, run (acts.map fun act => (claimsEnv, act)) none = some (some s, answers) ∧ s.groups["workers"]? = some g ∧
      s.lag g = some 2 ∧ (s.beyond g.last).length = 1

set_option synthInstance.maxSize 1000 in
theorem lag_wrong : SaysTwo createdAhead ∧ SaysTwo readPast := by
  have hahead : countersAfter createdAhead = some (([⟨5, 0⟩, ⟨6, 0⟩, ⟨1001, 0⟩], ⟨1001, 0⟩, 3, .zero), ⟨1000, 0⟩, some 1) := by
    decide
  have hpast : countersAfter readPast = some (([⟨1, 0⟩, ⟨3, 0⟩, ⟨4, 0⟩], ⟨4, 0⟩, 4, ⟨2, 0⟩), ⟨3, 0⟩, some 2) := by
    decide
  constructor
  · refine ⟨by simp [createdAhead, addAt, Act.Counted], ?_⟩
    obtain ⟨s, answers, g, hrun, hg, hlag, hbeyond⟩ := lag_of_countersAfter _ _ _ _ _ _ _ _ hahead (by decide) (by decide) (by decide)
    exact ⟨s, answers, g, hrun, hg, hlag.trans (by decide), by rw [hbeyond]; decide⟩
  · refine ⟨by simp [readPast, addAt, Act.Counted], ?_⟩
    obtain ⟨s, answers, g, hrun, hg, hlag, hbeyond⟩ := lag_of_countersAfter _ _ _ _ _ _ _ _ hpast (by decide) (by decide) (by decide)
    exact ⟨s, answers, g, hrun, hg, hlag.trans (by decide), by rw [hbeyond]; decide⟩

def created : Stream := Stream.empty.setGroup "workers" (workers ∅)

def oneBehind : Stream := created.add ⟨1, 0⟩ ["task", "a"]

theorem created_step : step claimsEnv none (.groupCreate "workers" (some .zero) none true) = some (some created, .ok) := by
  have hnot : "workers" ∉ Stream.empty.groups := ExtTreeMap.not_mem_empty
  have hstore : storeStream claimsEnv created = .ok created := rfl
  have hcreate : xgroupCreate claimsEnv "workers" (some .zero) none true none = .ok created := by
    unfold xgroupCreate
    rw [if_neg (by decide), Option.getD_none]
    dsimp only
    rw [if_neg hnot, if_pos (by decide)]
    exact hstore
  rw [step, hcreate, settleOk]

theorem oneBehind_reached : Reached [⟨1, 0⟩] (some oneBehind) := by
  have hcreated : Reached [] (some created) :=
    @Reached.step lagBuild [] none _ claimsEnv (.groupCreate "workers" (some .zero) none true) .ok .start rfl trivial created_step
  have hstep : step claimsEnv (some created) (addAt 1) = some (some oneBehind, .id ⟨1, 0⟩) := rfl
  have hstraight : (addAt 1).Straight claimsEnv [] created := by
    have hnext : nextId claimsEnv.now created.last (.exactly ⟨1, 0⟩) = .ok ⟨1, 0⟩ := by
      unfold nextId
      dsimp only
      rw [if_neg (by decide), if_neg (by decide)]
    refine ⟨by simp, fun id hid name g hg _ => ?_⟩
    rw [hnext] at hid
    cases hid
    by_cases hname : name = "workers"
    · rw [hname] at hg
      cases setGroup_self.symm.trans hg
      decide
    · have hnone : Stream.empty.groups[name]? = none := ExtTreeMap.getElem?_empty
      have hnone' := (setGroup_other hname).symm.trans hg
      rw [hnone] at hnone'
      exact nomatch hnone'
  have hreached := @Reached.step lagBuild [] (some created) (some oneBehind) claimsEnv (addAt 1) (.id ⟨1, 0⟩) hcreated trivial
    hstraight hstep
  exact hreached

theorem oneBehind_lag : (1 : UInt64).toNat = (oneBehind.beyond .zero).length := by
  have hkeys : oneBehind.entries.keys = [⟨1, 0⟩] := by decide
  have hlag : oneBehind.lag (workers ∅) = some 1 := lag_of_keys hkeys (by decide) (by decide) (.inr rfl)
  have hg : oneBehind.groups["workers"]? = some (workers ∅) := @setGroup_self Stream.empty "workers" (workers ∅)
  have hexact := lag_exact oneBehind_reached hg hlag
  exact hexact

end Samples

end KivaDb.Streams
