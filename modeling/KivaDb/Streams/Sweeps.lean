import KivaDb.Streams.Idle

namespace KivaDb.Streams

open Std (ExtTreeMap)
open Resp

/-- What comes of a pending entry that a sweep looks at: it is reported if it is gone, and else
claimed where it has been idle for long enough, and the machine can tell. -/
structure Examined (now m : Int64) (entries : Entries) (pending : Pel) (claimed : List (Id × List String)) (deleted : List Id) (id : Id) :
    Prop where
  gone : id ∉ entries → id ∈ deleted
  there : ∀ fields p, entries[id]? = some fields → pending[id]? = some p →
    ((id, fields) ∈ claimed ↔ m.toInt ≤ now.toInt - p.delivered.toInt ∧ now.toInt - p.delivered.toInt < 2 ^ 63)

/-- The cursor after a window that was looked at to its end. -/
def cursorAfter (full : Bool) (ids : List Id) (next : Id) : Id :=
  match ids.getLast? with
  | some last => if full then last.next.getD .zero else next
  | none => next

section

variable {now m : Int64} {entries : Entries} {pending : Pel} {claimed claimed' : List (Id × List String)} {deleted deleted' : List Id} {id : Id}

theorem Examined.mono (h : Examined now m entries pending claimed deleted id)
    (hclaimed : ∀ fields, (id, fields) ∈ claimed' ↔ (id, fields) ∈ claimed) (hdeleted : id ∈ deleted → id ∈ deleted') :
    Examined now m entries pending claimed' deleted' id :=
  ⟨fun hgone => hdeleted (h.gone hgone), fun fields p hentry hp => (hclaimed fields).trans (h.there fields p hentry hp)⟩

theorem cursorAfter_cons {full : Bool} {ids : List Id} {next : Id} :
    cursorAfter full ids (if ids = [] ∧ full then id.next.getD .zero else next) = cursorAfter full (id :: ids) next := by
  unfold cursorAfter
  cases ids with
  | nil => cases full <;> rfl
  | cons i ids =>
      rw [if_neg fun h => List.cons_ne_nil _ _ h.1, List.getLast?_cons_cons]

/-- What the cursor after a window leaves to come lies beyond it. -/
theorem cursorAfter_covers {start : Id} {window : Nat} {full : Bool} (hwindow : 0 < window)
    (hfull : full = true ↔ ((range pending start window).map Prod.fst).length = window) :
    (∀ id ∈ pending, start ≤ id → id ∈ (range pending start window).map Prod.fst ∨
      (cursorAfter full ((range pending start window).map Prod.fst) .zero ≠ .zero ∧
        cursorAfter full ((range pending start window).map Prod.fst) .zero ≤ id)) ∧
    (cursorAfter full ((range pending start window).map Prod.fst) .zero ≠ .zero → ∃ id ∈ pending, start ≤ id ∧
      id < cursorAfter full ((range pending start window).map Prod.fst) .zero) := by
  set ids := (range pending start window).map Prod.fst with hids
  have hmem : ∀ id ∈ ids, id ∈ pending ∧ start ≤ id := fun id hid => mem_scanned hid
  have hbeyond : ∀ id ∈ pending, start ≤ id → id ∉ ids → ids.length = window ∧ ∀ i ∈ ids, i < id := by
    intro id hin hstart hnot
    obtain ⟨p, hp⟩ := Option.isSome_iff_exists.mp (ExtTreeMap.mem_iff_isSome_getElem?.mp hin)
    obtain ⟨hlen, hall⟩ := range_complete hp hstart fun hrow => hnot (List.mem_map.mpr ⟨(id, p), hrow, rfl⟩)
    refine ⟨by rw [hids, List.length_map, hlen], fun i hi => ?_⟩
    obtain ⟨x, hx, rfl⟩ := List.mem_map.mp hi
    exact hall x hx
  cases hlast : ids.getLast? with
  | none =>
      have hnil := List.getLast?_eq_none_iff.mp hlast
      have hzero : cursorAfter full ids .zero = .zero := by rw [cursorAfter, hlast]
      refine ⟨fun id hin hstart => .inl ?_, fun hne => absurd hzero hne⟩
      by_contra hnot
      have hlen := (hbeyond id hin hstart hnot).1
      rw [hnil, List.length_nil] at hlen
      omega
  | some l =>
      have hl : l ∈ ids := List.mem_of_getLast? hlast
      have hcursor : cursorAfter full ids .zero = if full then l.next.getD .zero else .zero := by rw [cursorAfter, hlast]
      rw [hcursor]
      constructor
      · intro id hin hstart
        by_cases hseen : id ∈ ids
        · exact .inl hseen
        · obtain ⟨hlen, hall⟩ := hbeyond id hin hstart hseen
          rw [if_pos (hfull.mpr hlen)]
          cases hnext : l.next with
          | none =>
              rw [Id.next_none hnext] at hl
              exact absurd (hall Id.max hl) (not_lt_of_ge id.le_max)
          | some j =>
              refine .inr ⟨?_, (Id.next_some hnext).mpr (hall l hl)⟩
              exact ((Id.zero_le l).trans_lt (Id.lt_next hnext)).ne'
      · intro hne
        refine ⟨l, (hmem l hl).1, (hmem l hl).2, ?_⟩
        split
        · next hyes =>
            rw [if_pos hyes] at hne
            cases hnext : l.next with
            | none =>
                rw [hnext] at hne
                exact absurd rfl hne
            | some j => exact Id.lt_next hnext
        · next hno =>
            rw [if_neg hno] at hne
            exact absurd rfl hne

end

section

variable [Build] {now m : Int64} {consumer : String} {entries : Entries} {pending : Pel}

/-- Of the ids of a window, those below the new cursor are examined; where it is not the one after the
window, it is one of them, and lies above the first. -/
theorem sweepFrom_examines {justId full : Bool} {count : Nat} {ids : List Id} {w w' : Sweep} {lo : Id} (hnow : 0 ≤ now) (hm : 0 ≤ m)
    (hcount : 0 < count) (hsorted : ids.Pairwise (· < ·)) (hsame : ∀ id ∈ ids, w.pending[id]? = pending[id]?)
    (hlo : ∀ id ∈ ids, lo ≤ id) (hprior : 0 < w.taken → ∀ id ∈ ids, lo < id)
    (h : sweepFrom now m consumer justId entries count full ids w = some w') :
    ∃ out del, w'.claimed = w.claimed ++ out ∧ w'.deleted = w.deleted ++ del ∧ (∀ x ∈ out, x.1 ∈ ids) ∧
      (((∀ id ∈ ids, Examined now m entries pending out del id) ∧ w'.next = cursorAfter full ids w.next) ∨
        (w'.next ∈ ids ∧ lo < w'.next ∧ ∀ id ∈ ids, Examined now m entries pending out del id ∨ w'.next ≤ id)) := by
  induction ids generalizing w lo with
  | nil =>
      cases h
      exact ⟨[], [], (List.append_nil _).symm, (List.append_nil _).symm, (by rintro _ ⟨⟩), .inl ⟨(by rintro _ ⟨⟩), rfl⟩⟩
  | cons id ids ih =>
      obtain ⟨hfirst, hrest⟩ := List.pairwise_cons.mp hsorted
      rw [sweepFrom] at h
      by_cases hfull : count ≤ w.taken
      · rw [if_pos hfull] at h
        cases h
        refine ⟨[], [], (List.append_nil _).symm, (List.append_nil _).symm, (by rintro _ ⟨⟩), .inr ⟨List.mem_cons_self, ?_, ?_⟩⟩
        · exact hprior (Nat.lt_of_lt_of_le hcount hfull) id List.mem_cons_self
        · intro i hi
          rcases List.mem_cons.mp hi with rfl | hlater
          · exact .inr le_rfl
          · exact .inr (hfirst i hlater).le
      · rw [if_neg hfull] at h
        obtain ⟨v, hv, hclaimed, hdeleted, htaken, hpending, hnext⟩ :
            ∃ v : Sweep, (if ids = [] ∧ full then { w with next := id.next.getD .zero } else w) = v ∧ v.claimed = w.claimed ∧
              v.deleted = w.deleted ∧ v.taken = w.taken ∧ v.pending = w.pending ∧
              v.next = if ids = [] ∧ full then id.next.getD .zero else w.next := by
          refine ⟨_, rfl, ?_⟩
          split <;> exact ⟨rfl, rfl, rfl, rfl, rfl⟩
        dsimp only at h
        rw [hv] at h
        rw [← hclaimed, ← hdeleted]
        rw [← hpending] at hsame
        have hp := hsame id List.mem_cons_self
        have hlater : ∀ i ∈ ids, i ≠ id ∧ v.pending[i]? = pending[i]? := fun i hi =>
          ⟨(hfirst i hi).ne', hsame i (List.mem_cons_of_mem _ hi)⟩
        -- what comes of the rest does not touch the first
        have join : ∀ (u : Sweep) (head : List (Id × List String)) (gone : List Id),
            sweepFrom now m consumer justId entries count full ids u = some w' → u.next = v.next → u.claimed = v.claimed ++ head →
            u.deleted = v.deleted ++ gone → (∀ x ∈ head, x.1 = id) → (∀ i ∈ ids, u.pending[i]? = pending[i]?) →
            Examined now m entries pending head gone id →
            ∃ out del, w'.claimed = v.claimed ++ out ∧ w'.deleted = v.deleted ++ del ∧ (∀ x ∈ out, x.1 ∈ id :: ids) ∧
              (((∀ i ∈ id :: ids, Examined now m entries pending out del i) ∧ w'.next = cursorAfter full (id :: ids) w.next) ∨
                (w'.next ∈ id :: ids ∧ lo < w'.next ∧ ∀ i ∈ id :: ids, Examined now m entries pending out del i ∨ w'.next ≤ i)) := by
          intro u head gone hu hunext huclaimed hudeleted hhead hupending hexamined
          obtain ⟨out, del, hout, hdel, hin, hcursor⟩ := ih hrest hupending (fun i hi => (hfirst i hi).le) (fun _ => hfirst) hu
          have hmine : Examined now m entries pending (head ++ out) (gone ++ del) id := by
            refine hexamined.mono (fun fields => ?_) (List.mem_append_left del)
            rw [List.mem_append]
            exact or_iff_left fun hmem => absurd (hfirst id (hin (id, fields) hmem)) (lt_irrefl id)
          have htheirs : ∀ i ∈ ids, Examined now m entries pending out del i → Examined now m entries pending (head ++ out) (gone ++ del) i := by
            intro i hi hex
            refine hex.mono (fun fields => ?_) (List.mem_append_right gone)
            rw [List.mem_append]
            exact or_iff_right fun hmem => (hlater i hi).1 (hhead (i, fields) hmem)
          refine ⟨head ++ out, gone ++ del, ?_, ?_, ?_, ?_⟩
          · rw [hout, huclaimed, List.append_assoc]
          · rw [hdel, hudeleted, List.append_assoc]
          · intro x hx
            rcases List.mem_append.mp hx with hx | hx
            · exact List.mem_cons.mpr (.inl (hhead x hx))
            · exact List.mem_cons_of_mem _ (hin x hx)
          · rcases hcursor with ⟨hall, hnext'⟩ | ⟨hmem, hlt, hsome⟩
            · refine .inl ⟨List.forall_mem_cons.mpr ⟨hmine, fun i hi => htheirs i hi (hall i hi)⟩, ?_⟩
              rw [hnext', hunext, hnext, cursorAfter_cons]
            · refine .inr ⟨List.mem_cons_of_mem _ hmem, (hlo id List.mem_cons_self).trans_lt hlt, ?_⟩
              exact List.forall_mem_cons.mpr ⟨.inl hmine, fun i hi => (hsome i hi).imp_left (htheirs i hi)⟩
        cases hentry : entries[id]? with
        | none =>
            rw [hentry] at h
            refine join _ [] [id] h rfl (List.append_nil _).symm rfl (by rintro _ ⟨⟩) (fun i hi => ?_) ?_
            · dsimp only
              rw [ExtTreeMap.getElem?_erase, if_neg fun heq => (hlater i hi).1 (compare_eq_iff_eq.mp heq).symm]
              exact (hlater i hi).2
            · exact ⟨fun _ => List.mem_singleton.mpr rfl, fun fields p hsome => by rw [hentry] at hsome; cases hsome⟩
        | some fields =>
            have hin : id ∈ entries := ExtTreeMap.mem_iff_isSome_getElem?.mpr (Option.isSome_of_eq_some hentry)
            cases hpid : v.pending[id]? with
            | none =>
                rw [hentry, hpid] at h
                cases h
            | some p =>
                rw [hentry, hpid] at h
                obtain ⟨idle, hidle, hgo⟩ := Option.bind_eq_some_iff.mp h
                have hreach := idle_reaches hnow hm hidle
                have hsole : ∀ p', pending[id]? = some p' → p' = p := by
                  intro p' hp'
                  rw [← hp, hpid] at hp'
                  exact (Option.some.inj hp').symm
                by_cases hlt : idle < m
                · rw [if_pos hlt] at hgo
                  refine join _ [] [] hgo rfl (List.append_nil _).symm (List.append_nil _).symm (by rintro _ ⟨⟩) (fun i hi => (hlater i hi).2) ?_
                  refine ⟨fun hno => absurd hin hno, fun f p' _ hp' => ?_⟩
                  rw [hsole p' hp', ← hreach]
                  exact ⟨fun hmem => absurd hmem List.not_mem_nil, fun hno => absurd hlt hno⟩
                · rw [if_neg hlt] at hgo
                  refine join _ [(id, fields)] [] hgo rfl rfl (List.append_nil _).symm ?_ (fun i hi => ?_) ?_
                  · intro x hx
                    rw [List.mem_singleton.mp hx]
                  · dsimp only
                    rw [getElem?_insert_ne (hlater i hi).1]
                    exact (hlater i hi).2
                  · refine ⟨fun hno => absurd hin hno, fun f p' hf hp' => ?_⟩
                    rw [hsole p' hp', ← hreach]
                    refine ⟨fun _ => hlt, fun _ => ?_⟩
                    rw [hentry] at hf
                    rw [Option.some.inj hf]
                    exact List.mem_singleton.mpr rfl

theorem mul_value {a b c : UInt64} (h : mul a b = some c) (hlt : a.toNat * b.toNat < 2 ^ 64) : c.toNat = a.toNat * b.toNat := by
  unfold mul at h
  split at h
  · exact nomatch h
  · rw [← Option.some.inj h, UInt64.toNat_mul, Nat.mod_eq_of_lt hlt]

variable {e : Env} {group : String} {minIdle : Int64} {s s' : Stream} {g : Group}

/-- Every pending entry from the cursor on is examined, or left to the next cursor; and the next cursor
is behind some entry that was pending. -/
theorem xautoclaim_examines {start next : Id} {count : Int64} {justId : Bool} {out : List (Id × List String)} {deleted : List Id}
    (hg : s.groups[group]? = some g) (hcount : count.toInt ≤ 2 ^ 56)
    (h : xautoclaim e group consumer minIdle start count justId (some s) = some (.ok (s', next, out, deleted))) :
    (∀ id ∈ g.pending, start ≤ id →
      Examined e.now (atLeast 0 minIdle) s.entries g.pending out deleted id ∨ (next ≠ .zero ∧ next ≤ id)) ∧
    (next ≠ .zero → ∃ id ∈ g.pending, start ≤ id ∧ id < next) := by
  obtain ⟨window, w, hmul, hw, rfl, rfl, rfl, rfl⟩ := xautoclaim_claimed hg h
  have hvalue := toNat_toCount count
  have hten : (10 : UInt64).toNat = 10 := rfl
  have hwindow := mul_value hmul (by rw [hten]; omega)
  rw [hten] at hwindow
  have hcover := @cursorAfter_covers g.pending start window.toNat
    (((range g.pending start window.toNat).map Prod.fst).length = window.toNat) (by omega) decide_eq_true_iff
  set ids := (range g.pending start window.toNat).map Prod.fst with hids
  cases hscan : ids with
  | nil =>
      rw [hscan] at hw hcover
      cases hw
      refine ⟨fun id hin hstart => ?_, fun hne => absurd rfl hne⟩
      rcases hcover.1 id hin hstart with hnil | hnext
      · exact nomatch hnil
      · exact .inr hnext
  | cons first rest =>
      have hsorted : ids.Pairwise (· < ·) := scanned_sorted
      have hlo : ∀ id ∈ ids, first ≤ id := by
        intro id hid
        rw [hscan] at hid hsorted
        rcases List.mem_cons.mp hid with rfl | hlater
        · exact le_rfl
        · exact ((List.pairwise_cons.mp hsorted).1 id hlater).le
      have hfirst : first ∈ ids := by
        rw [hscan]
        exact List.mem_cons_self
      obtain ⟨out, del, hout, hdel, -, hcursor⟩ := sweepFrom_examines e.now_nonneg (atLeast_le 0 minIdle) (by omega) hsorted
        (fun _ _ => rfl) hlo (fun hpos => absurd hpos (Nat.lt_irrefl 0)) hw
      rw [List.nil_append] at hout hdel
      rw [hout, hdel]
      rcases hcursor with ⟨hall, hnext⟩ | ⟨hmem, hlt, hsome⟩
      · rw [hnext]
        refine ⟨fun id hin hstart => (hcover.1 id hin hstart).imp_left (hall id), hcover.2⟩
      · refine ⟨fun id hin hstart => ?_, fun _ => ⟨first, (mem_scanned hfirst).1, (mem_scanned hfirst).2, hlt⟩⟩
        have hne : w.next ≠ .zero := ((Id.zero_le first).trans_lt hlt).ne'
        by_cases hid : id ∈ ids
        · exact (hsome id hid).imp_right fun hle => ⟨hne, hle⟩
        · obtain ⟨p, hp⟩ := Option.isSome_iff_exists.mp (ExtTreeMap.mem_iff_isSome_getElem?.mp hin)
          obtain ⟨-, hbefore⟩ := range_complete hp hstart fun hrow => hid (List.mem_map.mpr ⟨(id, p), hrow, rfl⟩)
          obtain ⟨x, hx, heq⟩ := List.mem_map.mp hmem
          exact .inr ⟨hne, heq ▸ (hbefore x hx).le⟩

/-- Claiming in passing makes nothing pending. -/
theorem xautoclaim_pending {start next : Id} {count : Int64} {justId : Bool} {out : List (Id × List String)} {deleted : List Id}
    (hg : s.groups[group]? = some g)
    (h : xautoclaim e group consumer minIdle start count justId (some s) = some (.ok (s', next, out, deleted))) :
    ∃ g', s'.groups[group]? = some g' ∧ ∀ id ∈ g'.pending, id ∈ g.pending := by
  obtain ⟨window, w, -, hw, -, rfl, -, rfl⟩ := xautoclaim_claimed hg h
  obtain ⟨out, -, hclaimed⟩ := sweepFrom_claimed e.now_nonneg (atLeast_le 0 minIdle) hw
  refine ⟨_, setGroup_self, fun id hid => ?_⟩
  by_contra hnot
  have hnone := not_mem_iff.mpr hnot
  have hgone : w.pending[id]? = none := by
    by_cases hout : id ∈ out.map Prod.fst
    · rcases (hclaimed.given id hout).2.2 with ⟨p, hp, -⟩ | ⟨-, hforce, -⟩
      · rw [hp] at hnone
        cases hnone
      · cases hforce
    · rcases hclaimed.others id hout with hsame | ⟨-, hgone⟩ | ⟨-, -, hforce, -⟩
      · exact hsame.trans hnone
      · exact hgone
      · cases hforce
  exact not_mem_iff.mp hgone hid

end

/-- The entries of a group that an iteration still has before it. -/
def ahead (start : Id) (pending : Pel) : Finset Id := pending.keys.toFinset.filter fun id => start ≤ id

theorem mem_ahead {start id : Id} {pending : Pel} : id ∈ ahead start pending ↔ id ∈ pending ∧ start ≤ id := by
  rw [ahead, Finset.mem_filter, List.mem_toFinset, ExtTreeMap.mem_keys]

/-- One call of an iteration: the stream before and after, and what it answers. -/
structure Turn where
  env : Env
  consumer : String
  minIdle : Int64
  count : Int64
  justId : Bool
  before : Stream
  after : Stream
  next : Id
  claimed : List (Id × List String)
  deleted : List Id

section

variable [Build]

def Turn.Runs (t : Turn) (group : String) (start : Id) : Prop :=
  xautoclaim t.env group t.consumer t.minIdle start t.count t.justId (some t.before) = some (.ok (t.after, t.next, t.claimed, t.deleted))

/-- Calls that pass on the cursor until it comes back as 0-0. Between two of them the stream may change in any way. -/
def Iterates (group : String) : Id → List Turn → Prop
  | _, [] => False
  | start, t :: ts => t.Runs group start ∧ ((t.next = .zero ∧ ts = []) ∨ (t.next ≠ .zero ∧ Iterates group t.next ts))

theorem Iterates.examines {group : String} {id start : Id} {ts : List Turn} (h : Iterates group start ts)
    (hcount : ∀ t ∈ ts, t.count.toInt ≤ 2 ^ 56) (hid : ∀ t ∈ ts, ∃ g, t.before.groups[group]? = some g ∧ id ∈ g.pending)
    (hstart : start ≤ id) :
    ∃ t ∈ ts, ∃ g, t.before.groups[group]? = some g ∧ id ∈ g.pending ∧
      Examined t.env.now (atLeast 0 t.minIdle) t.before.entries g.pending t.claimed t.deleted id := by
  induction ts generalizing start with
  | nil => exact h.elim
  | cons t ts ih =>
      obtain ⟨hrun, hnext⟩ := h
      obtain ⟨g, hg, hin⟩ := hid t List.mem_cons_self
      rcases (xautoclaim_examines hg (hcount t List.mem_cons_self) hrun).1 id hin hstart with hex | ⟨hne, hle⟩
      · exact ⟨t, List.mem_cons_self, g, hg, hin, hex⟩
      · obtain ⟨-, hrest⟩ := hnext.resolve_left fun hdone => hne hdone.1
        obtain ⟨t', ht', hfound⟩ := ih hrest (fun u hu => hcount u (List.mem_cons_of_mem _ hu))
          (fun u hu => hid u (List.mem_cons_of_mem _ hu)) hle
        exact ⟨t', List.mem_cons_of_mem _ ht', hfound⟩

/-- The iteration from a cursor comes to its end, with nothing else going on. -/
inductive Ends (env : Nat → Env) (group consumer : String) (minIdle count : Int64) (justId : Bool) : Nat → Id → Stream → Prop
  | refused {n : Nat} {start : Id} {s : Stream} {why : Reply}
      (h : xautoclaim (env n) group consumer minIdle start count justId (some s) = some (.error why)) :
      Ends env group consumer minIdle count justId n start s
  | done {n : Nat} {start : Id} {s s' : Stream} {out : List (Id × List String)} {deleted : List Id}
      (h : xautoclaim (env n) group consumer minIdle start count justId (some s) = some (.ok (s', .zero, out, deleted))) :
      Ends env group consumer minIdle count justId n start s
  | more {n : Nat} {start next : Id} {s s' : Stream} {out : List (Id × List String)} {deleted : List Id}
      (h : xautoclaim (env n) group consumer minIdle start count justId (some s) = some (.ok (s', next, out, deleted)))
      (hnext : next ≠ .zero) (hrest : Ends env group consumer minIdle count justId (n + 1) next s') :
      Ends env group consumer minIdle count justId n start s

theorem sub_release {a b : Int64} (h : ¬ Build.checked = true) : sub a b = some (a - b) := by
  unfold sub
  rw [if_neg fun hno => h hno.1]

theorem ends {env : Nat → Env} {group consumer : String} {minIdle count : Int64} {justId : Bool} (hcount : count.toInt ≤ 2 ^ 56)
    {start : Id} {s : Stream} {n : Nat} {g : Group} (hg : s.groups[group]? = some g)
    (htimes : Pel.Held (fun p => Build.checked = true → ∀ k, (env k).now.toInt - p.delivered.toInt < 2 ^ 63) g.pending) :
    Ends env group consumer minIdle count justId n start s := by
  induction hsize : (ahead start g.pending).card using Nat.strong_induction_on generalizing n start s g with
  | h size ih =>
      obtain ⟨r, hr, hstored⟩ := @xautoclaim_some _ (env n) group consumer minIdle (some s)
        (fun p => Build.checked = true → ∀ k, (env k).now.toInt - p.delivered.toInt < 2 ^ 63) start count justId
        (fun p hp => by
          by_cases hchecked : Build.checked = true
          · have hlow : 0 ≤ (env n).now.toInt := Int64.le_iff_toInt_le.mp (env n).now_nonneg
            have hhigh := Int64.toInt_lt p.delivered
            exact ⟨_, sub_some (by omega) (hp hchecked n)⟩
          · exact ⟨_, sub_release hchecked⟩)
        (fun _ _ k => by
          have hlow : 0 ≤ (env n).now.toInt := Int64.le_iff_toInt_le.mp (env n).now_nonneg
          have hhigh := Int64.toInt_lt (env k).now
          dsimp only
          omega)
        (by omega) (fun t h ht hh => by cases ht; rw [hg] at hh; cases hh; exact htimes)
      cases r with
      | error why => exact .refused hr
      | ok x =>
          obtain ⟨s', next, out, deleted⟩ := x
          by_cases hnext : next = .zero
          · rw [hnext] at hr
            exact .done hr
          · obtain ⟨t, g', ht, hs', hheld⟩ := hstored s' (next, out, deleted) rfl
            cases ht
            obtain ⟨g'', hg'', hsub⟩ := xautoclaim_pending hg hr
            have hsame : g'' = g' := by
              rw [hs', setGroup_self] at hg''
              exact (Option.some.inj hg'').symm
            obtain ⟨id, hin, hle, hlt⟩ := (xautoclaim_examines hg hcount hr).2 hnext
            refine .more hr hnext (ih _ ?_ hg'' (hsame ▸ hheld) rfl)
            rw [← hsize]
            apply Finset.card_lt_card
            refine ⟨fun i hi => ?_, fun hall => ?_⟩
            · obtain ⟨hmem, hi'⟩ := mem_ahead.mp hi
              exact mem_ahead.mpr ⟨hsub i hmem, hle.trans (hlt.le.trans hi')⟩
            · exact absurd (mem_ahead.mp (hall (mem_ahead.mpr ⟨hin, hle⟩))).2 (not_le_of_gt hlt)

/-- An iteration of `XAUTOCLAIM` examines whatever was pending throughout, and comes to its end. An entry that
is idle for long enough is claimed where the time since its delivery can be computed. -/
theorem autoclaim_visits :
    (∀ group id ts, Iterates group .zero ts → (∀ t ∈ ts, t.count.toInt ≤ 2 ^ 56) →
      (∀ t ∈ ts, ∃ g, t.before.groups[group]? = some g ∧ id ∈ g.pending) →
      ∃ t ∈ ts, ∃ g p, t.before.groups[group]? = some g ∧ g.pending[id]? = some p ∧ (id ∉ t.before.entries → id ∈ t.deleted) ∧
        ∀ fields, t.before.entries[id]? = some fields →
          (((atLeast 0 t.minIdle).toInt ≤ t.env.now.toInt - p.delivered.toInt → (id, fields) ∈ t.claimed) ↔
            t.env.now.toInt - p.delivered.toInt < 2 ^ 63)) ∧
    (∀ (env : Nat → Env) group consumer minIdle (count : Int64) justId s g, count.toInt ≤ 2 ^ 56 → s.groups[group]? = some g →
      (Build.checked = true → ∀ k (id : Id) (p : Pending), g.pending[id]? = some p → (env k).now.toInt - p.delivered.toInt < 2 ^ 63) →
      Ends env group consumer minIdle count justId 0 .zero s) := by
  constructor
  · intro group id ts h hcount hid
    obtain ⟨t, ht, g, hg, hin, hex⟩ := h.examines hcount hid (Id.zero_le id)
    obtain ⟨p, hp⟩ := Option.isSome_iff_exists.mp (ExtTreeMap.mem_iff_isSome_getElem?.mp hin)
    refine ⟨t, ht, g, p, hg, hp, hex.gone, fun fields hfields => ?_⟩
    have hm : (atLeast 0 t.minIdle).toInt < 2 ^ 63 := Int64.toInt_lt _
    rw [hex.there fields p hfields hp]
    constructor
    · intro himp
      by_contra hge
      exact hge (himp (by omega)).2
    · exact fun hlt hidle => ⟨hidle, hlt⟩
  · intro env group consumer minIdle count justId s g hcount hg htimes
    exact ends hcount hg fun id p hp hchecked k => htimes hchecked k id p hp

end

section Samples

def heldForEver : Pel := (∅ : Pel).insert ⟨1, 0⟩ ⟨"bob", Int64.minValue, 1⟩

theorem turn_of_pendingOf (b : Build) (pending : Pel) (minIdle : Int64) (claimed : List (Id × List String)) (id : Id) (p : Pending)
    (rows : List (Id × Pending))
    (h : ((@xautoclaim b claimsEnv "workers" "ada" minIdle .zero 10 false (some (oneJob pending))).bind Except.toOption).map
      (fun x => (x.2, pendingOf x.1 "workers")) = some ((.zero, claimed, []), (id, p) :: rows)) :
    ∃ s', @Iterates b "workers" .zero [⟨claimsEnv, "ada", minIdle, 10, false, oneJob pending, s', .zero, claimed, []⟩] := by
  obtain ⟨s', -, hclaim, -⟩ := claimed_of_pendingOf _ _ _ _ _ _ h
  exact ⟨s', hclaim, .inl ⟨rfl, rfl⟩⟩

set_option synthInstance.maxSize 1000 in
/-- Delivered, by what another client has said, before all time: idle for long enough, and never claimed. -/
theorem heldForEver_passed : ∃ s', @Iterates release "workers" .zero
      [⟨claimsEnv, "ada", 900, 10, false, oneJob heldForEver, s', .zero, [], []⟩] ∧
    (oneJob heldForEver).groups["workers"]? = some (workers heldForEver) ∧
    (workers heldForEver).pending[(⟨1, 0⟩ : Id)]? = some ⟨"bob", Int64.minValue, 1⟩ ∧
    (oneJob heldForEver).entries[(⟨1, 0⟩ : Id)]? = some ["task", "a"] ∧
    (atLeast 0 900).toInt ≤ claimsEnv.now.toInt - Int64.minValue.toInt := by
  obtain ⟨s', hturn⟩ := turn_of_pendingOf release heldForEver 900 [] ⟨1, 0⟩ ⟨"bob", Int64.minValue, 1⟩ [] (by decide)
  exact ⟨s', hturn, setGroup_self, ExtTreeMap.getElem?_insert_self, ExtTreeMap.getElem?_insert_self, by decide⟩

set_option synthInstance.maxSize 1000 in
theorem heldByBob_visited :
    (∃ t : Turn, @Iterates debug "workers" .zero [t] ∧ t.before = oneJob heldByBob ∧ t.minIdle = 900 ∧ (⟨1, 0⟩, ["task", "a"]) ∈ t.claimed) ∧
    @Ends debug (fun _ => claimsEnv) "workers" "ada" 900 10 false 0 .zero (oneJob heldByBob) := by
  constructor
  · obtain ⟨s', hturn⟩ := turn_of_pendingOf debug heldByBob 900 [(⟨1, 0⟩, ["task", "a"])] ⟨1, 0⟩ ⟨"ada", 1000, 2⟩ [] (by decide)
    refine ⟨_, hturn, rfl, rfl, ?_⟩
    have hcount : (10 : Int64).toInt ≤ 2 ^ 56 := by decide
    have hlong : (atLeast 0 900).toInt ≤ claimsEnv.now.toInt - (10 : Int64).toInt := by decide
    have hrange : claimsEnv.now.toInt - (10 : Int64).toInt < 2 ^ 63 := by decide
    obtain ⟨t, ht, g, p, hg, hp, -, hclaimed⟩ := (@autoclaim_visits debug).1 "workers" ⟨1, 0⟩ _ hturn
      (List.forall_mem_singleton.mpr hcount)
      (List.forall_mem_singleton.mpr ⟨workers heldByBob, setGroup_self, ExtTreeMap.mem_insert_self⟩)
    rw [List.mem_singleton.mp ht] at hg hclaimed
    have hgroup : g = workers heldByBob := Option.some.inj (hg.symm.trans setGroup_self)
    rw [hgroup] at hp
    have hpending : p = ⟨"bob", 10, 1⟩ := Option.some.inj (hp.symm.trans ExtTreeMap.getElem?_insert_self)
    rw [hpending] at hclaimed
    exact (hclaimed ["task", "a"] ExtTreeMap.getElem?_insert_self).mpr hrange hlong
  · apply (@autoclaim_visits debug).2 _ _ _ _ _ _ _ (workers heldByBob) (by decide) setGroup_self
    intro _ _ id p hp
    have hrow := ExtTreeMap.mem_toList_iff_getElem?_eq_some.mpr hp
    have hlist : (workers heldByBob).pending.toList = [(⟨1, 0⟩, ⟨"bob", 10, 1⟩)] := by decide
    rw [hlist] at hrow
    have hpending : p = ⟨"bob", 10, 1⟩ := congrArg Prod.snd (List.mem_singleton.mp hrow)
    rw [hpending]
    decide

end Samples

end KivaDb.Streams
