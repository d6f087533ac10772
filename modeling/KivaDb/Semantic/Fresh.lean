import KivaDb.Semantic.Exact
import KivaDb.Semantic.Cache

namespace KivaDb.Semantic

open Std Glob Lib.Tally

namespace Space

variable [Ground] {s : Space}

theorem less_evict (hs : s.Exact) (maxEntries rounds : Nat) : s.Less (s.evict maxEntries rounds) := by
  induction rounds generalizing s with
  | zero => exact .refl hs
  | succ rounds ih =>
      unfold evict
      split
      · split
        · next id _ =>
            have hless := (less_remove hs id).1
            exact hless.trans (ih hless.exact)
        · exact .refl hs
      · exact .refl hs

/-- As many rounds as there are entries make the room. -/
theorem evict_size (hs : s.Exact) (maxEntries rounds : Nat) (hrounds : s.entries.size ≤ rounds) :
    (s.evict maxEntries rounds).entries.size < maxEntries ∨ (s.evict maxEntries rounds).entries.size = 0 := by
  induction rounds generalizing s with
  | zero => exact .inr (Nat.le_zero.mp hrounds)
  | succ rounds ih =>
      unfold evict
      split
      · split
        · next id hid =>
            obtain ⟨hexact, hentries, -⟩ := remove_spec hs id
            obtain ⟨e, he, -⟩ := Ground.oldest_some _ _ hid
            have hmem : id ∈ s.entries := ExtTreeMap.mem_iff_isSome_getElem?.mpr (by rw [he]; rfl)
            refine ih hexact ?_
            rw [hentries, ExtTreeMap.size_erase, if_pos (ExtTreeMap.contains_iff_mem.mpr hmem)]
            omega
        · next hnone => exact .inr (Ground.oldest_none _ hnone)
      · left
        omega

theorem less_replaced (hs : s.Exact) (q : Question) (now : Int) : s.Less (s.replaced q now) := by
  unfold replaced
  split
  · next old _ => exact (less_remove hs old).1
  · exact .refl hs

theorem less_cleared (hs : s.Exact) (q : Question) (now : Int) (maxEntries : Nat) :
    s.Less (s.cleared q now maxEntries) := by
  have hpurge := less_purge hs now
  have hreplaced := less_replaced hpurge.exact q now
  exact hpurge.trans (hreplaced.trans (less_evict hreplaced.exact _ _))

theorem absent_next (hs : s.Exact) : s.entries[toString (s.next + 1)]? = none := by
  rcases hget : s.entries[toString (s.next + 1)]? with _ | e
  · rfl
  · obtain ⟨k, hk, hid⟩ := hs.ids _ e hget
    have := Resp.toString_injective hid
    omega

theorem add_spec (hs : s.Exact) (q : Question) (e : Entry) :
    (s.add q e).Exact ∧ (s.add q e).entries = s.entries.insert (toString (s.next + 1)) e := by
  obtain ⟨⟨hentries, htexts, hnext⟩, hindexed⟩ :=
    addDeps (s := s.numbered q e.text) (hs.indexed.sameIndexes rfl rfl rfl rfl) e.depends (toString (s.next + 1))
  have hadd : (s.add q e).entries = s.entries.insert (toString (s.next + 1)) e := by
    simp only [add, hentries]
    rfl
  have habsent := absent_next hs
  refine ⟨⟨(hindexed.congr fun p i => ?_).sameIndexes rfl rfl rfl rfl, fun t i hti => ?_, fun i e' hi => ?_⟩, hadd⟩
  · unfold Depends
    rw [hadd, get_insert]
    by_cases hi : toString (s.next + 1) = i
    · subst hi
      rw [habsent, if_pos rfl]
      simp
    · rw [if_neg hi]
      simp only [Ne.symm hi, and_false, or_false]
  · rw [hadd, get_insert]
    replace hti := (congrArg (·[t]?) htexts).symm.trans hti
    by_cases hi : toString (s.next + 1) = i
    · subst hi
      rw [if_pos rfl]
      refine ⟨e, rfl, ?_⟩
      simp only [numbered] at hti
      split at hti
      · next t' ht' =>
          rw [get_insert] at hti
          split at hti
          · next htt => rw [ht', htt]
          · obtain ⟨e', he', -⟩ := hs.texts t _ hti
            rw [habsent] at he'
            exact nomatch he'
      · obtain ⟨e', he', -⟩ := hs.texts t _ hti
        rw [habsent] at he'
        exact nomatch he'
    · rw [if_neg hi]
      refine hs.texts t i ?_
      simp only [numbered] at hti
      split at hti
      · rw [get_insert] at hti
        split at hti
        · exact absurd (Option.some.inj hti) hi
        · exact hti
      · exact hti
  · have hnext' : (s.add q e).next = s.next + 1 := hnext
    rw [hnext']
    rw [hadd, get_insert] at hi
    split at hi
    · next hid => exact ⟨s.next + 1, Nat.le_refl _, hid.symm⟩
    · obtain ⟨k, hk, hid⟩ := hs.ids i e' hi
      exact ⟨k, Nat.le_succ_of_le hk, hid⟩

/-- The entries of `s'` are some of those of `s`, but for how often they were found. -/
structure From (s s' : Space) : Prop where
  exact : s'.Exact
  entries : ∀ (id : String) (e' : Entry), s'.entries[id]? = some e' →
    ∃ e n, s.entries[id]? = some e ∧ e' = { e with hits := n }

theorem Less.from_ {s' : Space} (h : s.Less s') : s.From s' :=
  ⟨h.exact, fun id e' he' => ⟨e', e'.hits, h.entries id e' he', rfl⟩⟩

theorem exact_misses (hs : s.Exact) (n : Nat) : { s with misses := n }.Exact :=
  ⟨hs.indexed.sameIndexes rfl rfl rfl rfl, hs.texts, hs.ids⟩

theorem from_hit (hs : s.Exact) (name id : String) (similarity : Ground.F32) :
    s.From (s.hit name id similarity).1 := by
  unfold hit
  split
  · exact (Less.refl hs).from_
  · next e he =>
      have hget (i : String) : (s.entries.insert id { e with hits := e.hits + 1 })[i]? =
          if id = i then some { e with hits := e.hits + 1 } else s.entries[i]? := get_insert _ _ _ _
      refine ⟨⟨(hs.indexed.congr fun p i => ?_).sameIndexes rfl rfl rfl rfl, fun t i hti => ?_, fun i e' hi => ?_⟩,
        fun i e' hi => ?_⟩
      · unfold Depends
        simp only [hget]
        split
        · next hi =>
            subst hi
            simp [he]
        · rfl
      · obtain ⟨e', he', ht⟩ := hs.texts t i hti
        simp only [hget]
        split
        · next hi =>
            subst hi
            rw [he] at he'
            obtain rfl := Option.some.inj he'
            exact ⟨_, rfl, ht⟩
        · exact ⟨e', he', ht⟩
      · simp only [hget] at hi
        split at hi
        · next hid =>
            subst hid
            exact hs.ids id e he
        · exact hs.ids i e' hi
      · simp only [hget] at hi
        split at hi
        · next hid =>
            subst hid
            exact ⟨e, e.hits + 1, he, (Option.some.inj hi).symm⟩
        · exact ⟨e', e'.hits, hi, rfl⟩

/-- The entry a hit is about is there, and alive. -/
def Found (s : Space) (name : String) (now : Int) (r : Option (Except KivaError Lookup)) : Prop :=
  match r with
  | none => False
  | some (.ok (.hit id _ answer)) =>
      ∃ (key : String) (e : Entry), s.entries[key]? = some e ∧ e.alive now = true ∧ e.answer = answer ∧ id = s!"{name}:{key}"
  | _ => True

theorem found_hit {name id : String} {similarity : Ground.F32} {now : Int}
    (h : (s.entries[id]?).any (fun e => e.alive now) = true) : s.Found name now (s.hit name id similarity).2 := by
  unfold hit
  rcases he : s.entries[id]? with _ | e
  · rw [he] at h
    exact nomatch h
  · rw [he] at h
    exact ⟨id, e, he, h, rfl, rfl⟩

theorem nearest_alive {v : List Ground.F32} {now : Int} {id : String} {score : Ground.F32}
    (h : s.nearest v now = some (id, score)) : (s.entries[id]?).any (fun e => e.alive now) = true := by
  simp only [nearest, Option.bind_eq_bind, Option.bind_eq_some_iff] at h
  obtain ⟨id', hid', score', -, heq⟩ := h
  obtain ⟨rfl, -⟩ := Prod.mk.injEq .. ▸ Option.some.inj heq
  exact Ground.accepted _ _ _ _ (List.mem_of_mem_head? hid')

theorem lookup_spec (hs : s.Exact) (name : String) (q : Question) (threshold : Ground.F32) (now : Int) (since : Nat) :
    s.From (s.lookup name q threshold now since).1 ∧ s.Found name now (s.lookup name q threshold now since).2 := by
  have hmiss (best : Option Ground.F32) : s.From (s.miss best since).1 :=
    ⟨exact_misses hs _, fun id e he => ⟨e, e.hits, he, rfl⟩⟩
  unfold lookup
  split
  · next id hid => exact ⟨from_hit hs _ _ _, found_hit (Option.filter_eq_some_iff.mp hid).2⟩
  · split
    · exact ⟨hmiss _, trivial⟩
    · split
      · exact ⟨(Less.refl hs).from_, trivial⟩
      · split
        · exact ⟨hmiss _, trivial⟩
        · next id score hnear =>
            split
            · exact ⟨from_hit hs _ _ _, found_hit (nearest_alive hnear)⟩
            · exact ⟨hmiss _, trivial⟩

end Space

namespace State

variable [Ground] {st : State}

theorem space_setSpace (st : State) (workspace name : String) (sp : Space) (ws n : String) :
    (st.setSpace workspace name sp).space ws n = if workspace = ws ∧ name = n then some sp else st.space ws n := by
  unfold space setSpace
  simp only [get_insert]
  by_cases hws : workspace = ws
  · subst hws
    simp only [if_true, Option.bind_some, get_insert, true_and]
    split
    · rfl
    · rcases st.spaces[workspace]? with _ | m
      · simp
      · rfl
  · simp [hws]

/-- Every cache is exact, and belongs to a workspace with a journal. -/
structure Sound (st : State) : Prop where
  exact : ∀ ws name sp, st.space ws name = some sp → sp.Exact
  journaled : ∀ ws name sp, st.space ws name = some sp → ∃ j, st.journals[ws]? = some j

/-- Where an entry comes from: it was there and the call does not touch it, or the call
stored it, with a token that was not stale. -/
def Kept (st : State) (x : Moment × Call) (ws name id : String) (e' : Entry) : Prop :=
  (∃ sp e n, st.space ws name = some sp ∧ sp.entries[id]? = some e ∧ e' = { e with hits := n } ∧
    ∀ c, c.workspace = ws → c.depends = e.depends → ¬ x.2.Touches c) ∨
  ∃ c, x.2 = .store c ∧ c.workspace = ws ∧ c.name = name ∧ e' = c.entry x.1 ∧
    (st.storeSince x.1 c).2 = .ok (.kept s!"{name}:{id}") ∧
    ∀ t, c.since = some t → (st.journal ws x.1).stale t c.depends = none

theorem Kept.of_from {x : Moment × Call} {ws name : String} {sp sp' : Space} (hsp : st.space ws name = some sp)
    (hfrom : sp.From sp') (hx : ∀ c, ¬ x.2.Touches c) {id : String} {e' : Entry} (he' : sp'.entries[id]? = some e') :
    st.Kept x ws name id e' := by
  obtain ⟨e, n, he, heq⟩ := hfrom.entries id e' he'
  exact .inl ⟨sp, e, n, hsp, he, heq, fun c _ _ => hx c⟩

theorem Kept.of_same {x : Moment × Call} {ws name : String} {sp : Space} (h : st.Sound)
    (hsp : st.space ws name = some sp) (hx : ∀ c, ¬ x.2.Touches c) {id : String} {e : Entry}
    (he : sp.entries[id]? = some e) : st.Kept x ws name id e :=
  .of_from hsp (Space.Less.refl (h.exact ws name sp hsp)).from_ hx he

/-- What a call makes of the caches. -/
def Keeps (st : State) (x : Moment × Call) (st' : State) : Prop :=
  ∀ ws name sp', st'.space ws name = some sp' →
    sp'.Exact ∧ (∃ j, st'.journals[ws]? = some j) ∧
      ∀ (id : String) (e : Entry), sp'.entries[id]? = some e → st.Kept x ws name id e

theorem Keeps.refl (h : st.Sound) {x : Moment × Call} (hx : ∀ c, ¬ x.2.Touches c) : st.Keeps x st :=
  fun ws name sp hsp => ⟨h.exact ws name sp hsp, h.journaled ws name sp hsp, fun _ _ he => .of_same h hsp hx he⟩

theorem sound_journaled (h : st.Sound) (workspace : String) (m : Moment) : (st.journaled workspace m).Sound := by
  refine ⟨h.exact, fun ws name sp hsp => ?_⟩
  show ∃ j, (st.journals.insert workspace _)[ws]? = some j
  rw [get_insert]
  split
  · exact ⟨_, rfl⟩
  · exact h.journaled ws name sp hsp

/-- One cache of a workspace with a journal changes. -/
theorem Keeps.setSpace (h : st.Sound) {x : Moment × Call} (hx : ∀ c, ¬ x.2.Touches c) {workspace name : String}
    {sp : Space} (hexact : sp.Exact)
    (hkept : ∀ (id : String) (e : Entry), sp.entries[id]? = some e → st.Kept x workspace name id e) :
    st.Keeps x ((st.journaled workspace x.1).setSpace workspace name sp) := by
  intro ws n sp' hsp'
  rw [space_setSpace] at hsp'
  have hjournal : ∀ w, (∃ j, st.journals[w]? = some j) ∨ w = workspace →
      ∃ j, ((st.journaled workspace x.1).setSpace workspace name sp).journals[w]? = some j := by
    intro w hw
    show ∃ j, (st.journals.insert workspace _)[w]? = some j
    rw [get_insert]
    split
    · exact ⟨_, rfl⟩
    · next hne => exact hw.resolve_right (Ne.symm hne)
  split at hsp'
  · next heq =>
      obtain ⟨rfl, rfl⟩ := heq
      obtain rfl := Option.some.inj hsp'
      exact ⟨hexact, hjournal _ (.inr rfl), hkept⟩
  · exact ⟨h.exact ws n sp' hsp', hjournal _ (.inl (h.journaled ws n sp' hsp')),
      fun _ _ he => .of_same h hsp' hx he⟩

theorem Keeps.journaled (h : st.Sound) {x : Moment × Call} (hx : ∀ c, ¬ x.2.Touches c) (workspace : String) :
    st.Keeps x (st.journaled workspace x.1) := by
  intro ws name sp hsp
  have h' := sound_journaled h workspace x.1
  exact ⟨h'.exact ws name sp hsp, h'.journaled ws name sp hsp, fun _ _ he => .of_same h hsp hx he⟩

theorem keeps_lookup (h : st.Sound) (m : Moment) (workspace name : String) (q : Question) (threshold : Ground.F32) :
    st.Keeps (m, .lookup workspace name q threshold) (st.lookup m workspace name q threshold).1 := by
  have hx : ∀ c, ¬ Call.Touches c (.lookup workspace name q threshold) := fun _ => id
  unfold lookup
  split
  · exact .refl h hx
  · simp only
    split
    · exact .journaled (x := (m, _)) h hx workspace
    · next sp hget =>
        have hsp : st.space workspace name = some sp := hget
        have hfrom := (Space.lookup_spec (h.exact _ _ sp hsp) name q threshold m.now (st.journal workspace m).seq).1
        exact .setSpace (x := (m, _)) h hx hfrom.exact fun _ _ he => .of_from hsp hfrom hx he

theorem exact_getD (h : st.Sound) (ws name : String) : ((st.space ws name).getD .new).Exact := by
  rcases hsp : st.space ws name with _ | sp
  · exact Space.exact_new
  · exact h.exact ws name sp hsp

theorem Kept.of_getD {x : Moment × Call} {ws name : String} (hx : ∀ c, ¬ x.2.Touches c) {id : String} {e : Entry}
    (he : ((st.space ws name).getD .new).entries[id]? = some e) : st.Kept x ws name id e := by
  rcases hsp : st.space ws name with _ | sp
  · rw [hsp] at he
    simp [Space.new] at he
  · rw [hsp] at he
    exact .inl ⟨sp, e, e.hits, hsp, he, rfl, fun c _ _ => hx c⟩

theorem keeps_store (h : st.Sound) (m : Moment) (c : Storing) : st.Keeps (m, .store c) (st.storeSince m c).1 := by
  have hx : ∀ c', ¬ Call.Touches c' (.store c) := fun _ => id
  have hexact := exact_getD h c.workspace c.name
  rcases hstore : st.storeSince m c with ⟨st', reply⟩
  have hreply := congrArg Prod.snd hstore
  simp only [storeSince] at hstore
  split at hstore
  · obtain rfl := congrArg Prod.fst hstore
    exact .refl h hx
  · split at hstore
    · obtain rfl := congrArg Prod.fst hstore
      exact .journaled (x := (m, _)) h hx c.workspace
    · next hfresh =>
        split at hstore
        · obtain rfl := congrArg Prod.fst hstore
          exact .setSpace (x := (m, _)) h hx hexact fun _ _ he => .of_getD hx he
        · have hcleared := Space.less_cleared hexact c.q m.now c.maxEntries
          obtain ⟨hadd, hentries⟩ := Space.add_spec hcleared.exact c.q (c.entry m)
          obtain rfl := congrArg Prod.fst hstore
          refine .setSpace (x := (m, _)) h hx hadd fun id e he => ?_
          replace he := (congrArg (·[id]?) hentries).symm.trans he
          simp only [get_insert] at he
          split at he
          · next hid =>
              subst hid
              refine .inr ⟨c, rfl, rfl, rfl, (Option.some.inj he).symm, ?_, fun t ht => ?_⟩
              · rw [hreply, ← congrArg Prod.snd hstore]
                rfl
              · rwa [ht] at hfresh
          · exact .of_getD hx (hcleared.entries id e he)

theorem keeps_invalidate (h : st.Sound) (m : Moment) (workspace key : String) :
    st.Keeps (m, .invalidate workspace key) (st.invalidate workspace key).1 := by
  have hother (ws : String) (hws : workspace ≠ ws) (c : Storing) (hc : c.workspace = ws) :
      ¬ Call.Touches c (.invalidate workspace key) := fun ht => hws (ht.1.trans hc)
  unfold invalidate
  split
  · next hnone =>
      intro ws name sp hsp
      have hws : workspace ≠ ws := by
        rintro rfl
        obtain ⟨j, hj⟩ := h.journaled _ name sp hsp
        rw [hnone] at hj
        cases hj
      exact ⟨h.exact ws name sp hsp, h.journaled ws name sp hsp, fun id e he =>
        .inl ⟨sp, e, e.hits, hsp, he, rfl, fun c hc _ => hother ws hws c hc⟩⟩
  · next j hj =>
      have hjournal (ws name : String) (sp : Space) (hsp : st.space ws name = some sp) :
          ∃ j', (st.journals.insert workspace (j.record key))[ws]? = some j' := by
        rw [get_insert]
        split
        · exact ⟨_, rfl⟩
        · exact h.journaled ws name sp hsp
      simp only
      split
      · next hnone =>
          intro ws name sp hsp
          have hsp' : st.space ws name = some sp := hsp
          have hws : workspace ≠ ws := by
            rintro rfl
            rw [space, hnone] at hsp'
            cases hsp'
          exact ⟨h.exact ws name sp hsp, hjournal ws name sp hsp', fun id e he =>
            .inl ⟨sp, e, e.hits, hsp, he, rfl, fun c hc _ => hother ws hws c hc⟩⟩
      · next caches hcaches =>
          intro ws name sp hsp
          simp only [space, get_insert] at hsp
          by_cases hws : workspace = ws
          · subst hws
            rw [if_pos rfl, Option.bind_some, ExtTreeMap.getElem?_map, Option.map_eq_some_iff] at hsp
            obtain ⟨old, hold, rfl⟩ := hsp
            have hspace : st.space workspace name = some old := by rw [space, hcaches, Option.bind_some, hold]
            obtain ⟨hless, hgone⟩ := Space.less_invalidate (h.exact _ _ _ hspace) key
            refine ⟨hless.exact, hjournal _ _ _ hspace, fun id e he => ?_⟩
            refine .inl ⟨old, e, e.hits, hspace, hless.entries id e he, rfl, fun c _ hdep ht => ?_⟩
            obtain ⟨-, p, hp, hglob⟩ := ht
            rw [hdep] at hp
            rw [hgone p id ⟨e, he, hp⟩] at hglob
            cases hglob
          · rw [if_neg hws] at hsp
            exact ⟨h.exact ws name sp hsp, hjournal ws name sp hsp, fun id e he =>
              .inl ⟨sp, e, e.hits, hsp, he, rfl, fun c hc _ => hother ws hws c hc⟩⟩

theorem keeps_reset (h : st.Sound) (m : Moment) (workspace : String) :
    st.Keeps (m, .reset workspace) (st.reset workspace) := by
  intro ws name sp hsp
  have hget : workspace ≠ ws ∧ st.space ws name = some sp := by
    simp only [space, reset, get_erase] at hsp
    split at hsp
    · exact nomatch hsp
    · next hne => exact ⟨hne, hsp⟩
  refine ⟨h.exact ws name sp hget.2, ?_, fun id e he => .inl ⟨sp, e, e.hits, hget.2, he, rfl, fun c hc _ ht => ?_⟩⟩
  · obtain ⟨j, hj⟩ := h.journaled ws name sp hget.2
    refine ⟨j, ?_⟩
    simp only [reset]
    split
    · exact hj
    · rw [get_insert, if_neg hget.1, hj]
  · exact hget.1 (Eq.trans ht hc)

theorem clear_journals (st : State) (workspace : String) (name : Option String) :
    (st.clear workspace name).1.journals = st.journals := by
  unfold clear
  split
  · rfl
  · split <;> rfl

theorem keeps_clear (h : st.Sound) (m : Moment) (workspace : String) (name : Option String) :
    st.Keeps (m, .clear workspace name) (st.clear workspace name).1 := by
  have hx : ∀ c, ¬ Call.Touches c (.clear workspace name) := fun _ => id
  have hsub (ws n : String) (sp : Space) (hsp : (st.clear workspace name).1.space ws n = some sp) :
      st.space ws n = some sp := by
    unfold clear at hsp
    split at hsp
    · exact hsp
    · next caches hcaches =>
        split at hsp
        · simp only [space, get_erase] at hsp
          split at hsp
          · exact nomatch hsp
          · exact hsp
        · simp only [space, get_insert] at hsp
          split at hsp
          · next hws =>
              rw [Option.bind_some, get_erase] at hsp
              split at hsp
              · exact nomatch hsp
              · rw [space, ← hws, hcaches, Option.bind_some, hsp]
          · exact hsp
  intro ws n sp hsp
  have hold := hsub ws n sp hsp
  refine ⟨h.exact ws n sp hold, ?_, fun _ _ he => .of_same h hold hx he⟩
  rw [clear_journals]
  exact h.journaled ws n sp hold

end State

end KivaDb.Semantic
