import KivaDb.Semantic.Fresh

namespace KivaDb.Semantic

open Std Glob Lib.Tally

namespace Journal

variable {j : Journal} {t : Nat}

structure Sound (j : Journal) : Prop where
  floor_le : j.floor ≤ j.seq
  within : ∀ w ∈ j.recent, j.floor < w.1 ∧ w.1 ≤ j.seq
  sorted : j.recent.Pairwise (·.1 < ·.1)

theorem sound_new (micros : Nat) : (new micros).Sound := ⟨Nat.le_refl _, fun _ h => (nomatch h), .nil⟩

theorem sound_reset (j : Journal) : j.reset.Sound := ⟨Nat.le_refl _, fun _ h => (nomatch h), .nil⟩

/-- The write that may have left the journal is at its new floor. -/
theorem record_spec (h : j.Sound) (key : String) :
    (j.record key).Sound ∧ (j.record key).seq = j.seq + 1 ∧ j.floor ≤ (j.record key).floor ∧
      ∀ w ∈ j.recent ++ [(j.seq + 1, key)], w ∈ (j.record key).recent ∨ w.1 = (j.record key).floor := by
  have hsorted : (j.recent ++ [(j.seq + 1, key)]).Pairwise (·.1 < ·.1) := by
    refine List.pairwise_append.mpr ⟨h.sorted, List.pairwise_singleton _ _, fun w hw w' hw' => ?_⟩
    rw [List.mem_singleton.mp hw']
    exact Nat.lt_succ_of_le (h.within w hw).2
  have hwithin (w : Nat × String) (hw : w ∈ j.recent ++ [(j.seq + 1, key)]) : j.floor < w.1 ∧ w.1 ≤ j.seq + 1 := by
    rcases List.mem_append.mp hw with hw | hw
    · exact ⟨(h.within w hw).1, Nat.le_succ_of_le (h.within w hw).2⟩
    · rw [List.mem_singleton.mp hw]
      exact ⟨Nat.lt_succ_of_le h.floor_le, Nat.le_refl _⟩
  unfold record
  split
  · next hnil => simp at hnil
  · next first rest hcons =>
      rw [hcons] at hsorted hwithin ⊢
      have hfirst := hwithin first List.mem_cons_self
      split
      · refine ⟨⟨hfirst.2, fun w hw => ⟨?_, (hwithin w (List.mem_cons_of_mem _ hw)).2⟩, hsorted.of_cons⟩, rfl,
          hfirst.1.le, fun w hw => ?_⟩
        · exact List.rel_of_pairwise_cons hsorted hw
        · rcases List.mem_cons.mp hw with rfl | hw
          · exact .inr rfl
          · exact .inl hw
      · exact ⟨⟨Nat.le_succ_of_le h.floor_le, hwithin, hsorted⟩, rfl, Nat.le_refl _, fun w hw => .inl hw⟩

theorem mem_takeWhile {w : Nat × String} (ws : List (Nat × String)) (hsorted : ws.Pairwise (·.1 > ·.1)) (hw : w ∈ ws)
    (ht : t < w.1) : w ∈ ws.takeWhile fun v => t < v.1 := by
  induction ws with
  | nil => exact nomatch hw
  | cons v ws ih =>
      have hv : t < v.1 := by
        rcases List.mem_cons.mp hw with rfl | hw
        · exact ht
        · exact Nat.lt_trans ht (List.rel_of_pairwise_cons hsorted hw)
      rw [List.takeWhile_cons, if_pos (decide_eq_true hv)]
      rcases List.mem_cons.mp hw with rfl | hw
      · exact List.mem_cons_self
      · exact List.mem_cons_of_mem _ (ih hsorted.of_cons hw)

/-- A token that passes is not too old, and no write after it is of a key among `depends`. -/
theorem stale_none (h : j.Sound) {depends : List String} (hstale : j.stale t depends = none) :
    j.floor ≤ t ∧ ∀ w ∈ j.recent, t < w.1 → ∀ p ∈ depends, globMatch p w.2 = false := by
  unfold stale at hstale
  split at hstale
  · exact nomatch hstale
  · next hrange =>
      refine ⟨by omega, fun w hw ht p hp => ?_⟩
      have hmem := mem_takeWhile (t := t) j.recent.reverse (List.pairwise_reverse.mpr h.sorted)
        (List.mem_reverse.mpr hw) ht
      have hnone := List.find?_eq_none.mp (Option.map_eq_none_iff.mp hstale) w.2 (List.mem_map_of_mem hmem)
      refine Bool.eq_false_iff.mpr fun hglob => hnone ?_
      exact List.any_eq_true.mpr ⟨p, hp, hglob⟩

end Journal

section

variable [Ground] {st : State} {j : Journal} {t : Nat} {ws : String}

/-- What a call does to the journal of a workspace. -/
def Call.write (ws : String) (j : Journal) : Call → Journal
  | .invalidate workspace key => if workspace = ws then j.record key else j
  | .reset workspace => if workspace = ws then j.reset else j
  | _ => j

theorem journaled_some (hj : st.journals[ws]? = some j) (workspace : String) (m : Moment) :
    (st.journaled workspace m).journals[ws]? = some j := by
  show (st.journals.insert workspace _)[ws]? = some j
  rw [get_insert]
  split
  · next hws => rw [State.journal, hws, hj, Option.getD_some]
  · exact hj

theorem storeSince_journals (st : State) (m : Moment) (c : Storing) :
    (st.storeSince m c).1.journals = st.journals ∨
      (st.storeSince m c).1.journals = (st.journaled c.workspace m).journals := by
  simp only [State.storeSince]
  split
  · exact .inl rfl
  · split
    · exact .inr rfl
    · split <;> exact .inr rfl

theorem lookup_journals (st : State) (m : Moment) (workspace name : String) (q : Question) (threshold : Ground.F32) :
    (st.lookup m workspace name q threshold).1.journals = st.journals ∨
      (st.lookup m workspace name q threshold).1.journals = (st.journaled workspace m).journals := by
  simp only [State.lookup]
  split
  · exact .inl rfl
  · split <;> exact .inr rfl

theorem invalidate_journals (st : State) (workspace key : String) :
    (st.invalidate workspace key).1.journals =
      match st.journals[workspace]? with
      | none => st.journals
      | some j => st.journals.insert workspace (j.record key) := by
  unfold State.invalidate
  rcases st.journals[workspace]? with _ | j
  · rfl
  · simp only
    split <;> rfl

theorem step_journal_some (hj : st.journals[ws]? = some j) (x : Moment × Call) :
    (step st x).journals[ws]? = some (x.2.write ws j) := by
  obtain ⟨m, call⟩ := x
  cases call with
  | lookup workspace name q threshold =>
      rcases lookup_journals st m workspace name q threshold with h | h
      · exact (congrArg (·[ws]?) h).trans hj
      · exact (congrArg (·[ws]?) h).trans (journaled_some hj workspace m)
  | store c =>
      rcases storeSince_journals st m c with h | h
      · exact (congrArg (·[ws]?) h).trans hj
      · exact (congrArg (·[ws]?) h).trans (journaled_some hj c.workspace m)
  | invalidate workspace key =>
      simp only [step, invalidate_journals, Call.write]
      by_cases hws : workspace = ws
      · subst hws
        simp only [hj, get_insert, if_true]
      · simp only [if_neg hws]
        split
        · exact hj
        · rw [get_insert, if_neg hws, hj]
  | reset workspace =>
      simp only [step, State.reset, Call.write]
      by_cases hws : workspace = ws
      · subst hws
        simp only [hj, get_insert, if_true]
      · simp only [if_neg hws]
        split
        · exact hj
        · rw [get_insert, if_neg hws, hj]
  | clear workspace name => exact (congrArg (·[ws]?) (State.clear_journals st workspace name)).trans hj

theorem step_journal_none (hj : st.journals[ws]? = none) (x : Moment × Call) :
    (step st x).journals[ws]? = none ∨ (step st x).journals[ws]? = some (.new x.1.micros) := by
  obtain ⟨m, call⟩ := x
  have hjournaled (workspace : String) : (st.journaled workspace m).journals[ws]? = none ∨
      (st.journaled workspace m).journals[ws]? = some (.new m.micros) := by
    show (st.journals.insert workspace _)[ws]? = none ∨ (st.journals.insert workspace _)[ws]? = some _
    rw [get_insert]
    split
    · next hws =>
        rw [State.journal, hws, hj]
        exact .inr rfl
    · exact .inl hj
  cases call with
  | lookup workspace name q threshold =>
      rcases lookup_journals st m workspace name q threshold with h | h
      · exact .inl ((congrArg (·[ws]?) h).trans hj)
      · simpa only [step, h] using hjournaled workspace
  | store c =>
      rcases storeSince_journals st m c with h | h
      · exact .inl ((congrArg (·[ws]?) h).trans hj)
      · simpa only [step, h] using hjournaled c.workspace
  | invalidate workspace key =>
      left
      simp only [step, invalidate_journals]
      split
      · exact hj
      · next j hsome =>
          rw [get_insert, if_neg, hj]
          rintro rfl
          rw [hj] at hsome
          exact nomatch hsome
  | reset workspace =>
      left
      simp only [step, State.reset]
      split
      · exact hj
      · next j hsome =>
          rw [get_insert, if_neg, hj]
          rintro rfl
          rw [hj] at hsome
          exact nomatch hsome
  | clear workspace name => exact .inl ((congrArg (·[ws]?) (State.clear_journals st workspace name)).trans hj)

/-- A call of the past is on record as later than the token, or the token is too old. -/
def Call.Past (ws : String) (j : Journal) (t : Nat) : Call → Prop
  | .invalidate workspace key => workspace = ws → t < j.floor ∨ ∃ s, t < s ∧ (s, key) ∈ j.recent
  | .reset workspace => workspace = ws → t < j.floor
  | _ => True

theorem sound_write (ws : String) (h : j.Sound) (call : Call) :
    (call.write ws j).Sound ∧ j.seq ≤ (call.write ws j).seq ∧ j.floor ≤ (call.write ws j).floor := by
  cases call with
  | invalidate workspace key =>
      simp only [Call.write]
      split
      · obtain ⟨hsound, hseq, hfloor, -⟩ := j.record_spec h key
        exact ⟨hsound, by omega, hfloor⟩
      · exact ⟨h, Nat.le_refl _, Nat.le_refl _⟩
  | reset workspace =>
      simp only [Call.write]
      split
      · exact ⟨j.sound_reset, Nat.le_succ _, Nat.le_succ_of_le h.floor_le⟩
      · exact ⟨h, Nat.le_refl _, Nat.le_refl _⟩
  | _ => exact ⟨h, Nat.le_refl _, Nat.le_refl _⟩

theorem recent_write (h : j.Sound) (call : Call) {w : Nat × String} (hw : w ∈ j.recent) (ht : t < w.1) :
    t < (call.write ws j).floor ∨ w ∈ (call.write ws j).recent := by
  cases call with
  | invalidate workspace key =>
      simp only [Call.write]
      split
      · rcases (j.record_spec h key).2.2.2 w (List.mem_append_left _ hw) with hin | hfloor
        · exact .inr hin
        · exact .inl (hfloor ▸ ht)
      · exact .inr hw
  | reset workspace =>
      simp only [Call.write]
      split
      · left
        exact Nat.lt_of_lt_of_le ht (Nat.le_succ_of_le (h.within w hw).2)
      · exact .inr hw
  | _ => exact .inr hw

theorem Call.Past.write (h : j.Sound) (call : Call) {past : Call} (hpast : past.Past ws j t) :
    past.Past ws (call.write ws j) t := by
  have hfloor := (sound_write ws h call).2.2
  cases past with
  | invalidate workspace key =>
      intro hws
      rcases hpast hws with hold | ⟨s, hs, hin⟩
      · exact .inl (Nat.lt_of_lt_of_le hold hfloor)
      · exact (recent_write h call hin hs).imp id fun hin' => ⟨s, hs, hin'⟩
  | reset workspace => exact fun hws => Nat.lt_of_lt_of_le (hpast hws) hfloor
  | _ => trivial

theorem past_self (h : j.Sound) (ht : t ≤ j.seq) (call : Call) : call.Past ws (call.write ws j) t := by
  cases call with
  | invalidate workspace key =>
      intro hws
      simp only [Call.write, if_pos hws]
      rcases (j.record_spec h key).2.2.2 (j.seq + 1, key) (List.mem_append_right _ List.mem_cons_self) with hin | hfloor
      · exact .inr ⟨j.seq + 1, by omega, hin⟩
      · exact .inl (by simp only at hfloor; omega)
  | reset workspace =>
      intro hws
      simp only [Call.write, if_pos hws]
      exact Nat.lt_succ_of_le ht
  | _ => trivial

/-- From a token on, every call is on record. -/
theorem past_run (h : j.Sound) (hj : st.journals[ws]? = some j) (ht : t ≤ j.seq) (calls : List (Moment × Call)) :
    ∃ j', (calls.foldl step st).journals[ws]? = some j' ∧ j'.Sound ∧
      (∀ past : Call, past.Past ws j t → past.Past ws j' t) ∧ ∀ x ∈ calls, x.2.Past ws j' t := by
  induction calls generalizing st j with
  | nil => exact ⟨j, hj, h, fun _ hpast => hpast, fun x hx => nomatch hx⟩
  | cons x calls ih =>
      obtain ⟨hsound, hseq, -⟩ := sound_write ws h x.2
      obtain ⟨j', hj', hsound', hkept, hcalls⟩ := ih hsound (step_journal_some hj x) (ht.trans hseq)
      refine ⟨j', hj', hsound', fun past hpast => hkept past (hpast.write h x.2), fun y hy => ?_⟩
      rcases List.mem_cons.mp hy with rfl | hy
      · exact hkept _ (past_self h ht _)
      · exact hcalls y hy

theorem journals_sound (calls : List (Moment × Call)) (hj : (run calls).journals[ws]? = some j) : j.Sound := by
  induction calls using List.reverseRecOn generalizing j with
  | nil => simp [run, State.new] at hj
  | append_singleton calls x ih =>
      rw [run, List.foldl_append] at hj
      change (step (run calls) x).journals[ws]? = some j at hj
      rcases hold : (run calls).journals[ws]? with _ | old
      · rcases step_journal_none hold x with hnone | hnew
        · rw [hnone] at hj
          exact nomatch hj
        · rw [hnew] at hj
          rw [← Option.some.inj hj]
          exact Journal.sound_new _
      · rw [step_journal_some hold x] at hj
        rw [← Option.some.inj hj]
        exact (sound_write ws (ih hold) x.2).1

/-- A call on record as later than a token does not touch an answer that the token lets in. -/
theorem untouched_of_past (h : j.Sound) {c : Storing} (hstale : j.stale t c.depends = none) {call : Call}
    (hpast : call.Past c.workspace j t) : ¬ call.Touches c := by
  obtain ⟨hfloor, hrecent⟩ := j.stale_none h hstale
  intro htouch
  cases call with
  | invalidate workspace key =>
      obtain ⟨hws, p, hp, hglob⟩ := htouch
      rcases hpast hws with hold | ⟨s, hs, hin⟩
      · omega
      · rw [hrecent (s, key) hin hs p hp] at hglob
        cases hglob
  | reset workspace =>
      have := hpast htouch
      omega
  | _ => exact htouch

def Untouched (c : Storing) (calls : List (Moment × Call)) : Prop := ∀ x ∈ calls, ¬ x.2.Touches c

/-- The answer was kept under this id in this cache, and nothing it depends on was touched
since, nor from the moment of its token on. -/
structure Origin (calls : List (Moment × Call)) (ws name id : String) (m : Moment) (c : Storing) : Prop where
  inWorkspace : c.workspace = ws
  inCache : c.name = name
  stored : ∃ before after, calls = before ++ (m, .store c) :: after ∧
    ((run before).storeSince m c).2 = .ok (.kept s!"{name}:{id}") ∧ Untouched c after ∧
    ∀ t, c.since = some t → ∀ b₁ b₂, before = b₁ ++ b₂ → (run b₁).token ws = some t → Untouched c b₂

theorem run_snoc (calls : List (Moment × Call)) (x : Moment × Call) : run (calls ++ [x]) = step (run calls) x := by
  rw [run, List.foldl_append]
  rfl

theorem Origin.snoc {calls : List (Moment × Call)} {name id : String} {m : Moment} {c : Storing}
    (h : Origin calls ws name id m c) {x : Moment × Call} (hx : ¬ x.2.Touches c) :
    Origin (calls ++ [x]) ws name id m c := by
  obtain ⟨hws, hname, before, after, heq, hkept, hafter, hsince⟩ := h
  refine ⟨hws, hname, before, after ++ [x], ?_, hkept, fun y hy => ?_, hsince⟩
  · rw [heq, List.append_assoc, List.cons_append]
  · rcases List.mem_append.mp hy with hy | hy
    · exact hafter y hy
    · rw [List.mem_singleton.mp hy]
      exact hx

theorem origin_store {calls : List (Moment × Call)} {name id : String} {m : Moment} {c : Storing}
    (hws : c.workspace = ws) (hname : c.name = name)
    (hkept : ((run calls).storeSince m c).2 = .ok (.kept s!"{name}:{id}"))
    (hfresh : ∀ t, c.since = some t → ((run calls).journal ws m).stale t c.depends = none) :
    Origin (calls ++ [(m, .store c)]) ws name id m c := by
  refine ⟨hws, hname, calls, [], rfl, hkept, fun x hx => (nomatch hx), fun t ht b₁ b₂ heq htoken x hx => ?_⟩
  obtain ⟨j, hj, hseq⟩ := Option.map_eq_some_iff.mp htoken
  obtain ⟨j', hj', hsound, -, hpast⟩ := past_run (journals_sound b₁ hj) hj hseq.ge b₂
  have hrun : (run calls).journals[ws]? = some j' := by
    rw [heq, run, List.foldl_append]
    exact hj'
  have hstale := hfresh t ht
  rw [State.journal, hrun, Option.getD_some] at hstale
  refine untouched_of_past hsound hstale ?_
  rw [hws]
  exact hpast x hx

theorem keeps_step (h : st.Sound) (x : Moment × Call) : st.Keeps x (step st x) := by
  obtain ⟨m, call⟩ := x
  cases call with
  | lookup workspace name q threshold => exact State.keeps_lookup h m workspace name q threshold
  | store c => exact State.keeps_store h m c
  | invalidate workspace key => exact State.keeps_invalidate h m workspace key
  | reset workspace => exact State.keeps_reset h m workspace
  | clear workspace name => exact State.keeps_clear h m workspace name

/-- In every run, the caches are exact and each entry has an origin. -/
theorem run_spec (calls : List (Moment × Call)) :
    (run calls).Sound ∧ ∀ ws name sp, (run calls).space ws name = some sp →
      ∀ (id : String) (e : Entry), sp.entries[id]? = some e →
        ∃ m c n, Origin calls ws name id m c ∧ e = { c.entry m with hits := n } := by
  induction calls using List.reverseRecOn with
  | nil =>
      have hnone (ws name : String) : (run []).space ws name = none := by simp [run, State.new, State.space]
      refine ⟨⟨fun ws name sp hsp => ?_, fun ws name sp hsp => ?_⟩, fun ws name sp hsp => ?_⟩ <;>
        cases (hnone ws name).symm.trans hsp
  | append_singleton calls x ih =>
      obtain ⟨hsound, horigin⟩ := ih
      have hkeeps := keeps_step hsound x
      rw [run_snoc]
      refine ⟨⟨fun ws name sp hsp => (hkeeps ws name sp hsp).1, fun ws name sp hsp => (hkeeps ws name sp hsp).2.1⟩,
        fun ws name sp hsp id e he => ?_⟩
      rcases (hkeeps ws name sp hsp).2.2 id e he with ⟨old, e', n, hold, he', rfl, hx⟩ | ⟨c, hc, hws, hname, rfl, hkept, hfresh⟩
      · obtain ⟨m, c, k, hfrom, rfl⟩ := horigin ws name old hold id e' he'
        exact ⟨m, c, n, hfrom.snoc (hx c hfrom.inWorkspace rfl), rfl⟩
      · obtain ⟨m, call⟩ := x
        obtain rfl : call = .store c := hc
        exact ⟨m, c, 0, origin_store hws hname hkept hfresh, rfl⟩

/-- What a lookup of `name` may answer after these calls. -/
def Served (calls : List (Moment × Call)) (now : Moment) (ws name : String) :
    Option (Except KivaError Lookup) → Prop
  | none => False
  | some (.ok (.hit id _ answer)) => ∃ key m c, id = s!"{name}:{key}" ∧ Origin calls ws name key m c ∧
      c.answer = answer ∧ (0 < c.ttl → (now.now : Int) < m.now + c.ttl)
  | _ => True

theorem alive_entry {c : Storing} {m now : Moment} {n : Nat}
    (h : ({ c.entry m with hits := n } : Entry).alive now.now = true) (httl : 0 < c.ttl) :
    (now.now : Int) < m.now + c.ttl := by
  have hexpires : c.expiresAt m = m.now + c.ttl := if_pos httl
  have hor : c.expiresAt m = 0 ∨ (now.now : Int) < c.expiresAt m :=
    (Bool.or_eq_true_iff.mp h).imp of_decide_eq_true of_decide_eq_true
  rw [hexpires] at hor
  omega

/-- No answer is stale: after any calls the indexes of every cache are exact and no counter
has gone below zero, and what a lookup finds was stored in this cache, has not expired, and
depends on nothing that changed since. -/
theorem never_stale (calls : List (Moment × Call)) :
    (∀ ws name sp, (run calls).space ws name = some sp → sp.Exact) ∧
      ∀ (now : Moment) (ws name : String) (q : Question) (threshold : Ground.F32),
        Served calls now ws name ((run calls).lookup now ws name q threshold).2 := by
  obtain ⟨hsound, horigin⟩ := run_spec calls
  refine ⟨hsound.exact, fun now ws name q threshold => ?_⟩
  unfold State.lookup
  split
  · trivial
  · simp only
    split
    · trivial
    · next sp hget =>
        have hsp : (run calls).space ws name = some sp := hget
        have hfound := (Space.lookup_spec (hsound.exact ws name sp hsp) name q threshold now.now
          ((run calls).journal ws now).seq).2
        rcases hr : (sp.lookup name q threshold now.now ((run calls).journal ws now).seq).2 with _ | r
        · rw [hr] at hfound
          exact hfound
        · rw [hr] at hfound
          rcases r with err | (⟨id, similarity, answer⟩ | ⟨best, since⟩)
          · trivial
          · obtain ⟨key, e, he, halive, hanswer, hid⟩ := hfound
            obtain ⟨m, c, n, hfrom, rfl⟩ := horigin ws name sp hsp key e he
            exact ⟨key, m, c, hid, hfrom, hanswer, alive_entry halive⟩
          · trivial

end

section Samples

local instance ages : Preorder Int := Int.instLinearOrder.toPreorder

/-- Without vectors the graph stays empty. -/
local instance texts : Ground where
  F32 := Int
  isZero := (· = 0)
  le := fun a b => a ≤ b
  one := 10000
  same := 9999
  maxDims := 4096
  lowercase := fun s => String.ofList (s.toList.map Char.toLower)
  Graph := Unit
  new := ()
  insert := fun g _ _ => g
  remove := fun g _ => g
  tidy := id
  search := fun _ _ _ => []
  score := fun _ _ _ => none
  oldest := fun m => (m.toList.argmin fun p => p.2.created).map Prod.fst
  accepted := fun _ _ _ _ h => nomatch h
  oldest_none := fun m h => by
    have hnil := List.argmin_eq_none.mp (Option.map_eq_none_iff.mp h)
    rw [ExtTreeMap.toList_eq_nil_iff.mp hnil]
    rfl
  oldest_some := fun m id h => by
    obtain ⟨p, hp, rfl⟩ := Option.map_eq_some_iff.mp h
    refine ⟨p.2, ExtTreeMap.mem_toList_iff_getElem?_eq_some.mp (List.argmin_mem hp), fun id' e' he' => ?_⟩
    have hmem := ExtTreeMap.mem_toList_iff_getElem?_eq_some.mpr he'
    exact List.le_of_mem_argmin (f := fun p : String × Entry => p.2.created) hmem hp

def asked (text : String) : Question := { text := some text, vector := none }

/-- A question missed, and its answer stored with the token of the miss. -/
def faq : List (Moment × Call) :=
  [(⟨5, 5000000⟩, .lookup "main" "faq" (asked "Who is first?") Ground.same),
    (⟨7, 7000000⟩, .store {
      workspace := "main"
      name := "faq"
      q := asked "Who is first?"
      answer := .null
      ttl := 60
      depends := ["users:*", "users:1"]
      maxEntries := 10
      since := some 5000000 })]

def isHit : Option (Except KivaError Lookup) → Bool
  | some (.ok (.hit _ _ _)) => true
  | _ => false

theorem never_stale_faq :
    isHit ((run faq).lookup ⟨66, 66000000⟩ "main" "faq" (asked "  who is  FIRST?") Ground.same).2 = true ∧
      Served faq ⟨66, 66000000⟩ "main" "faq"
        ((run faq).lookup ⟨66, 66000000⟩ "main" "faq" (asked "  who is  FIRST?") Ground.same).2 :=
  ⟨by decide, (never_stale faq).2 _ _ _ _ _⟩

end Samples

end KivaDb.Semantic
