import KivaDb.Vector.Graph
import Mathlib.Data.List.Perm.Subperm

namespace KivaDb.Vector

open Lib.Heap Lib.BestFirst Lib.LittleEndian

namespace Visits

/-- The marks of the current epoch are those of the nodes seen, and no mark is ahead of it. -/
structure Marks (v : Visits) (seen : List Nat) : Prop where
  marked : ∀ id, v.marks[id]? = some v.epoch ↔ id ∈ seen
  old : ∀ m ∈ v.marks, m.toNat ≤ v.epoch.toNat

/-- What a search leaves: no mark is ahead of the epoch. -/
def Old (v : Visits) : Prop := ∀ m ∈ v.marks, m.toNat ≤ v.epoch.toNat

variable {v : Visits} {seen : List Nat} {n id : Nat}

theorem length_start : n ≤ (v.start n).marks.length := by
  have hmarks : n ≤ (if v.marks.length < n then v.marks ++ List.replicate (n - v.marks.length) 0 else v.marks).length := by
    split
    · rw [List.length_append, List.length_replicate]
      omega
    · omega
  unfold start
  dsimp only
  split
  · rw [List.length_replicate]
    exact hmarks
  · exact hmarks

/-- A new epoch is no node's mark, also when the counter of the epochs comes around. -/
theorem Old.start (h : v.Old) (n : Nat) : (v.start n).Marks [] := by
  have hmarks : ∀ m ∈ (if v.marks.length < n then v.marks ++ List.replicate (n - v.marks.length) 0 else v.marks),
      m.toNat ≤ v.epoch.toNat := by
    intro m hm
    split at hm
    · rcases List.mem_append.mp hm with hm | hm
      · exact h m hm
      · rw [(List.mem_replicate.mp hm).2]
        exact Nat.zero_le _
    · exact h m hm
  unfold Visits.start
  dsimp only
  split
  · next hwrap =>
    refine ⟨fun id => iff_of_false (fun hid => ?_) List.not_mem_nil, fun m hm => ?_⟩
    · have hzero := (List.mem_replicate.mp (List.mem_of_getElem? hid)).2
      have hone : (1 : UInt32) ≠ 0 := by decide
      exact hone hzero
    · rw [(List.mem_replicate.mp hm).2]
      exact Nat.zero_le _
  · next hnext =>
    have hadd : (v.epoch + 1).toNat = v.epoch.toNat + 1 := by
      have hlt := v.epoch.toNat_lt
      have hne : v.epoch.toNat + 1 ≠ 2 ^ 32 := by
        intro heq
        refine hnext (UInt32.toNat_inj.mp ?_)
        rw [UInt32.toNat_add, UInt32.toNat_one, heq]
        rfl
      rw [UInt32.toNat_add, UInt32.toNat_one, Nat.mod_eq_of_lt (by omega)]
    refine ⟨fun id => iff_of_false (fun hid => ?_) List.not_mem_nil, fun m hm => ?_⟩
    · have hle := hmarks _ (List.mem_of_getElem? hid)
      dsimp only at hle
      omega
    · have hle := hmarks m hm
      dsimp only
      omega

theorem Marks.first (h : v.Marks seen) (hid : id < v.marks.length) :
    ∃ v', v.first id = some (decide (id ∉ seen), v') ∧ v'.Marks (if id ∈ seen then seen else id :: seen) ∧
      v'.marks.length = v.marks.length := by
  have hget : v.marks[id]? = some v.marks[id] := List.getElem?_eq_getElem hid
  have hbool : (v.marks[id] != v.epoch) = decide (id ∉ seen) := by
    rw [bne_eq, decide_not]
    congr 1
    rw [Bool.eq_iff_iff, beq_iff_eq, decide_eq_true_eq, ← h.marked, hget, Option.some.injEq]
  refine ⟨{ v with marks := v.marks.set id v.epoch }, ?_, ⟨fun j => ?_, fun m hm => ?_⟩, List.length_set⟩
  · simp only [Visits.first, hget, Option.bind_eq_bind, Option.bind_some, hbool]
    rfl
  · dsimp only
    rw [List.getElem?_set]
    have hin : j ∈ (if id ∈ seen then seen else id :: seen) ↔ j = id ∨ j ∈ seen := by
      split
      · next hs =>
        refine ⟨.inr, ?_⟩
        rintro (rfl | hj)
        · exact hs
        · exact hj
      · exact List.mem_cons
    rw [hin]
    split
    · next heq =>
      subst heq
      exact iff_of_true rfl (.inl rfl)
    · next hne =>
      rw [h.marked]
      exact ⟨.inr, fun hj => hj.resolve_left (Ne.symm hne)⟩
  · rcases List.mem_or_eq_of_mem_set hm with hm | rfl
    · exact h.old m hm
    · exact le_rfl

end Visits

namespace Hnsw

variable {g : Hnsw} {level ef : Nat} {dist : Nat → Option F32} {allow : Nat → Option Bool}

/-- What is found at a node: nothing at one infinitely far. -/
def view (dist : Nat → Option F32) (id : Nat) : Option Near :=
  (dist id).bind fun d => if d.same F32.infinity then none else some ⟨d, id⟩

theorem id_of_view {id : Nat} {a : Near} (h : view dist id = some a) : a.id = id := by
  obtain ⟨d, -, hd⟩ := Option.bind_eq_some_iff.mp h
  split at hd
  · cases hd
  · obtain rfl := Option.some.inj hd
    rfl

/-- A layer of the graph, to be looked through for what is closest. -/
def space (g : Hnsw) (level ef : Nat) (dist : Nat → Option F32) (allow : Nat → Option Bool) : Space Nat Near where
  next id := (g.linksAt level id).getD []
  view := view dist
  node := Near.id
  allow id := (allow id).getD false
  keep := ef
  cmp := Near.cmp
  closer a b := a.dist.lt b.dist
  node_view := id_of_view

instance space_transCmp : Std.TransCmp (g.space level ef dist allow).cmp := Near.transCmp

/-- The links of a layer stay on it, and the nodes can be compared. -/
structure Ready (g : Hnsw) (level : Nat) (dist : Nat → Option F32) (allow : Nat → Option Bool) : Prop where
  links : ∀ {id ns}, g.linksAt level id = some ns → ∀ n ∈ ns, (g.linksAt level n).isSome
  dist : ∀ id < g.nodes.length, (dist id).isSome
  allow : ∀ id < g.nodes.length, (allow id).isSome

theorem lt_of_linksAt {id : Nat} (h : (g.linksAt level id).isSome) : id < g.nodes.length := by
  by_contra hge
  rw [linksAt, List.getElem?_eq_none (Nat.not_lt.mp hge)] at h
  cases h

/-- The state of the search is the walk through the layer. -/
structure Keeps (g : Hnsw) (s : Looking) (w : Walk Nat Near) : Prop where
  visits : s.visits.Marks w.seen
  marks : g.nodes.length ≤ s.visits.marks.length
  candidates : s.candidates = w.ahead
  best : s.best = w.best
  count : s.count = w.count

variable (ef) in
theorem Keeps.look (hr : g.Ready level dist allow) {s : Looking} {w : Walk Nat Near} (h : g.Keeps s w) {n : Nat}
    (hn : n < g.nodes.length) :
    ∃ s', Hnsw.look dist allow ef s n = some s' ∧ g.Keeps s' ((g.space level ef dist allow).visit w n) := by
  obtain ⟨v', hfirst, hmarks, hlen⟩ := h.visits.first (hn.trans_le h.marks)
  obtain ⟨d, hd⟩ := Option.isSome_iff_exists.mp (hr.dist n hn)
  obtain ⟨ok, hok⟩ := Option.isSome_iff_exists.mp (hr.allow n hn)
  have hlen' : g.nodes.length ≤ v'.marks.length := hlen ▸ h.marks
  have hview : (g.space level ef dist allow).view n = if d.same F32.infinity then none else some ⟨d, n⟩ := by
    change (dist n).bind _ = _
    rw [hd]
    rfl
  have hallow : (g.space level ef dist allow).allow n = ok := by
    change (allow n).getD false = ok
    rw [hok]
    rfl
  simp only [Hnsw.look, hfirst, Option.bind_eq_bind, Option.bind_some]
  by_cases hseen : n ∈ w.seen
  · rw [if_pos hseen] at hmarks
    have hvisit : (g.space level ef dist allow).visit w n = w := if_pos hseen
    rw [hvisit]
    simp only [hseen, not_true_eq_false, decide_false, Bool.not_false, if_true]
    exact ⟨_, rfl, hmarks, hlen', h.candidates, h.best, h.count⟩
  · rw [if_neg hseen] at hmarks
    simp only [hseen, not_false_eq_true, decide_true, Bool.not_true, Bool.false_eq_true, if_false, hd, Option.bind_some]
    rw [Space.visit, if_neg hseen, hview]
    by_cases hinf : d.same F32.infinity = true
    · rw [if_pos hinf, if_pos hinf]
      exact ⟨_, rfl, hmarks, hlen', h.candidates, h.best, h.count⟩
    · rw [if_neg hinf, if_neg hinf]
      have hwelcome : (g.space level ef dist allow).welcome w.best ⟨d, n⟩ = welcome ef s.best d := by
        rw [h.best]
        rfl
      dsimp only
      rw [hwelcome, hallow, hok]
      by_cases hw : welcome ef s.best d = true
      · rw [if_pos hw, if_pos hw]
        simp only [Option.bind_some]
        cases ok with
        | true =>
            refine ⟨_, rfl, hmarks, hlen', ?_, ?_, congrArg (· + 1) h.count⟩
            · rw [h.candidates]
              rfl
            · rw [h.best]
              rfl
        | false =>
            refine ⟨_, rfl, hmarks, hlen', ?_, h.best, congrArg (· + 1) h.count⟩
            rw [h.candidates]
            rfl
      · rw [if_neg hw, if_neg hw]
        exact ⟨_, rfl, hmarks, hlen', h.candidates, h.best, congrArg (· + 1) h.count⟩

variable (ef) in
theorem Keeps.looks (hr : g.Ready level dist allow) {s : Looking} {w : Walk Nat Near} (h : g.Keeps s w) {ns : List Nat}
    (hns : ∀ n ∈ ns, n < g.nodes.length) :
    ∃ s', ns.foldlM (Hnsw.look dist allow ef) s = some s' ∧ g.Keeps s' (ns.foldl (g.space level ef dist allow).visit w) := by
  induction ns generalizing s w with
  | nil => exact ⟨s, rfl, h⟩
  | cons n ns ih =>
      obtain ⟨s₁, hlook, h₁⟩ := h.look ef hr (hns n List.mem_cons_self)
      obtain ⟨s', hlooks, h'⟩ := ih h₁ fun m hm => hns m (List.mem_cons_of_mem _ hm)
      refine ⟨s', ?_, h'⟩
      rw [List.foldlM_cons, hlook]
      exact hlooks

theorem Keeps.layerLoop (hr : g.Ready level dist allow) {fuel : Nat} {s : Looking} {w w' : Walk Nat Near} (h : g.Keeps s w)
    (hahead : ∀ a ∈ w.ahead, (g.linksAt level a.id).isSome)
    (hrun : (g.space level ef dist allow).run fuel w = some w') :
    ∃ s', Hnsw.layerLoop (g.linksAt level) ef dist allow fuel s = some s' ∧ g.Keeps s' w' := by
  induction fuel generalizing s w with
  | zero => cases hrun
  | succ fuel ih =>
      rw [Space.run] at hrun
      rw [Hnsw.layerLoop, h.candidates]
      cases hw : w.ahead with
      | nil =>
          rw [hw] at hrun
          obtain rfl := Option.some.inj hrun
          exact ⟨s, rfl, h⟩
      | cons c ahead =>
          rw [hw] at hrun
          dsimp only at hrun ⊢
          have hkeeps : g.Keeps { s with candidates := ahead } { w with ahead } :=
            ⟨h.visits, h.marks, rfl, h.best, h.count⟩
          have hover : (g.space level ef dist allow).isOver w c =
              (decide (ef ≤ s.best.length) && (peek s.best).any fun w => w.dist.lt c.dist) := by
            rw [h.best]
            rfl
          rw [hover] at hrun
          by_cases hstop : (decide (ef ≤ s.best.length) && (peek s.best).any fun w => w.dist.lt c.dist) = true
          · rw [if_pos hstop] at hrun ⊢
            obtain rfl := Option.some.inj hrun
            exact ⟨_, rfl, hkeeps⟩
          · rw [if_neg hstop] at hrun ⊢
            have hc : c ∈ w.ahead := by
              rw [hw]
              exact List.mem_cons_self
            obtain ⟨ns, hns⟩ := Option.isSome_iff_exists.mp (hahead c hc)
            have hnext : (g.space level ef dist allow).next ((g.space level ef dist allow).node c) = ns := by
              change (g.linksAt level c.id).getD [] = ns
              rw [hns]
              rfl
            have hlayer (n : Nat) (hn : n ∈ ns) : (g.linksAt level n).isSome := hr.links hns n hn
            rw [hnext] at hrun
            obtain ⟨s₁, hlooks, h₁⟩ := hkeeps.looks ef hr fun n hn => lt_of_linksAt (hlayer n hn)
            have hahead' : ∀ a ∈ (ns.foldl (g.space level ef dist allow).visit { w with ahead }).ahead,
                (g.linksAt level a.id).isSome := by
              refine Space.ahead_visits (P := fun n => (g.linksAt level n).isSome) (fun a ha => hahead a ?_) hlayer
              rw [hw]
              exact List.mem_cons_of_mem _ ha
            obtain ⟨s', hloop, h'⟩ := ih h₁ hahead' hrun
            refine ⟨s', ?_, h'⟩
            rw [hns]
            simp only [Option.bind_eq_bind, Option.bind_some]
            rw [hlooks]
            exact hloop

theorem allowed_eq {entry : List Near} (h : ∀ e ∈ entry, (allow e.id).isSome) :
    allowed allow entry = some (entry.filter fun e => (allow e.id).getD false) := by
  induction entry with
  | nil => rfl
  | cons e es ih =>
      obtain ⟨ok, hok⟩ := Option.isSome_iff_exists.mp (h e List.mem_cons_self)
      rw [allowed, hok, ih fun e' he' => h e' (List.mem_cons_of_mem _ he'), List.filter_cons, hok]
      rfl

theorem marks_roots (entry : List Near) {v : Visits} {seen : List Nat} (h : v.Marks seen)
    (hin : ∀ e ∈ entry, e.id < v.marks.length) :
    ∃ v', entry.foldlM (fun (v : Visits) n => (v.first n.id).map Prod.snd) v = some v' ∧
      v'.marks.length = v.marks.length ∧ ∃ seen', v'.Marks seen' ∧ ∀ id, id ∈ seen' ↔ id ∈ seen ∨ id ∈ entry.map Near.id := by
  induction entry generalizing v seen with
  | nil => exact ⟨v, rfl, rfl, seen, h, fun id => (or_iff_left List.not_mem_nil).symm⟩
  | cons e es ih =>
      obtain ⟨v₁, hfirst, h₁, hlen⟩ := h.first (hin e List.mem_cons_self)
      obtain ⟨v', hfold, hlen', seen', h', hmem⟩ := ih h₁ fun e' he' => by
        rw [hlen]
        exact hin e' (List.mem_cons_of_mem _ he')
      refine ⟨v', ?_, hlen'.trans hlen, seen', h', fun id => (hmem id).trans ?_⟩
      · rw [List.foldlM_cons, hfirst]
        exact hfold
      · rw [List.map_cons, List.mem_cons]
        split
        · next hseen =>
          refine ⟨fun hid => hid.imp_right .inr, ?_⟩
          rintro (hid | rfl | hid)
          · exact .inl hid
          · exact .inl hseen
          · exact .inr hid
        · rw [List.mem_cons, or_assoc]
          exact or_left_comm

/-- What a search begins with: distinct nodes of the layer. -/
structure Roots (g : Hnsw) (level : Nat) (entry : List Near) : Prop where
  nodup : (entry.map Near.id).Nodup
  layer : ∀ e ∈ entry, (g.linksAt level e.id).isSome

variable (ef) in
/-- The search of a layer is the best-first walk through it, whatever searches came before. -/
theorem searchLayerWith_walk (hr : g.Ready level dist allow) {entry : List Near} (he : g.Roots level entry) (count : Nat) :
    ∃ w, (g.space level ef dist allow).Done entry w ∧ (∀ n ∈ w.seen, (g.linksAt level n).isSome) ∧
      ∀ v : Visits, v.Old → ∃ v', v'.Old ∧
        Hnsw.searchLayerWith { g with visits := v } entry ef level dist allow count = some (w.best.reverse, w.count, v') := by
  have hin (e : Near) (h : e ∈ entry) : e.id < g.nodes.length := lt_of_linksAt (he.layer e h)
  have hsound := (Space.start_sound (s := g.space level ef dist allow) he.nodup count)
  have hroots : ∀ r ∈ entry, r.id ∈ ((g.space level ef dist allow).start entry count).seen :=
    fun r hr => List.mem_map_of_mem hr
  have hseen : ∀ n ∈ ((g.space level ef dist allow).start entry count).seen, (g.linksAt level n).isSome := by
    intro n hn
    obtain ⟨e, hmem, rfl⟩ := List.mem_map.mp hn
    exact he.layer e hmem
  have hahead : ∀ a ∈ ((g.space level ef dist allow).start entry count).ahead, (g.linksAt level a.id).isSome :=
    fun a ha => he.layer a ((Space.heaped_perm _ entry).mem_iff.mp ha)
  have hnext (n : Nat) (hn : (g.linksAt level n).isSome) (m : Nat) (hm : m ∈ (g.space level ef dist allow).next n) :
      (g.linksAt level m).isSome := by
    obtain ⟨ns, hns⟩ := Option.isSome_iff_exists.mp hn
    have hnext : (g.space level ef dist allow).next n = ns := by
      change (g.linksAt level n).getD [] = ns
      rw [hns]
      rfl
    exact hr.links hns m (hnext ▸ hm)
  let layer : List Nat := (List.range g.nodes.length).filter fun n => (g.linksAt level n).isSome
  have hlayer (n : Nat) : n ∈ layer ↔ (g.linksAt level n).isSome :=
    List.mem_filter.trans ⟨And.right, fun h => ⟨List.mem_range.mpr (lt_of_linksAt h), h⟩⟩
  have hfuel : layer.length + ((g.space level ef dist allow).start entry count).ahead.length <
      g.nodes.length + entry.length + 1 + ((g.space level ef dist allow).start entry count).seen.length := by
    have hle : layer.length ≤ g.nodes.length :=
      (List.length_filter_le _ _).trans (List.length_range (n := g.nodes.length)).le
    have hheap : ((g.space level ef dist allow).start entry count).ahead.length = entry.length :=
      (Space.heaped_perm _ entry).length_eq
    omega
  obtain ⟨w, hrun⟩ := Space.run_ends hsound hroots (fun n hn => (hlayer n).mpr (hseen n hn))
    (fun n hn m hm => (hlayer m).mpr (hnext n ((hlayer n).mp hn) m hm)) hfuel
  have hdone := Space.run_done hsound hroots (fun _ => Space.start_covers entry count) hrun
  have hlast := Space.run_seen hseen hahead hnext hrun
  refine ⟨w, hdone, hlast, fun v hv => ?_⟩
  obtain ⟨v₁, hfold, hlen, seen', hmarks, hmem⟩ := marks_roots entry (hv.start g.nodes.length)
    fun e hmem => (hin e hmem).trans_le Visits.length_start
  have hkeeps : g.Keeps ⟨v₁, entry.foldl (fun h n => push reverse n h) [],
      (entry.filter fun e => (allow e.id).getD false).foldl (fun h n => push Near.cmp n h) [], count⟩
      ((g.space level ef dist allow).start entry count) := by
    refine ⟨⟨fun id => ?_, hmarks.old⟩, ?_, rfl, rfl, rfl⟩
    · rw [hmarks.marked, hmem]
      exact or_iff_right List.not_mem_nil
    · rw [hlen]
      exact Visits.length_start
  obtain ⟨s', hloop, hk⟩ := hkeeps.layerLoop hr hahead hrun
  refine ⟨s'.visits, hk.visits.old, ?_⟩
  have hlinks : Hnsw.linksAt { g with visits := v } level = g.linksAt level := rfl
  rw [searchLayerWith, allowed_eq fun e hmem => hr.allow _ (hin e hmem), hlinks]
  dsimp only [Option.bind_eq_bind]
  rw [hfold]
  simp only [Option.bind_some]
  rw [hloop, Option.bind_some, hk.best, hk.count]
  rfl

/-- A node of the layer, at its distance. -/
structure At (g : Hnsw) (level : Nat) (dist : Nat → Option F32) (cur : Near) : Prop where
  layer : (g.linksAt level cur.id).isSome
  dist : dist cur.id = some cur.dist

theorem layer_mono {level' id : Nat} (hle : level' ≤ level) (h : (g.linksAt level id).isSome) :
    (g.linksAt level' id).isSome := by
  unfold linksAt at *
  cases hn : g.nodes[id]? with
  | none =>
      rw [hn] at h
      cases h
  | some n =>
      rw [hn] at h
      have hlt := (List.getElem?_eq_some_iff.mp (Option.eq_some_of_isSome h)).1
      change (n.links[level']?).isSome
      rw [List.getElem?_eq_getElem (hle.trans_lt hlt)]
      rfl

theorem At.mono {level' : Nat} {cur : Near} (hle : level' ≤ level) (h : g.At level dist cur) : g.At level' dist cur :=
  ⟨layer_mono hle h.layer, h.dist⟩

/-- None of the nodes is closer. -/
def NoneCloser (dist : Nat → Option F32) (ns : List Nat) (d : F32) : Prop :=
  ∀ n ∈ ns, ∀ d', dist n = some d' → d'.lt d = false

theorem pass_loop {ns : List Nat} (hdist : ∀ n ∈ ns, (dist n).isSome) (cur : Near) (moved : Bool) (count : Nat) :
    ∃ cur' moved' count', ns.foldlM (fun (s : Near × Bool × Nat) n => do
      let d ← dist n
      return if d.lt s.1.dist then (⟨d, n⟩, true, s.2.2 + 1) else (s.1, s.2.1, s.2.2 + 1)) (cur, moved, count) =
        some (cur', moved', count') ∧
      ((moved' = moved ∧ cur' = cur ∧ NoneCloser dist ns cur.dist) ∨
        (moved' = true ∧ cur'.id ∈ ns ∧ dist cur'.id = some cur'.dist ∧ cur'.dist.lt cur.dist = true)) := by
  induction ns generalizing cur moved count with
  | nil => exact ⟨cur, moved, count, rfl, .inl ⟨rfl, rfl, fun _ hn => absurd hn List.not_mem_nil⟩⟩
  | cons n ns ih =>
      obtain ⟨d, hd⟩ := Option.isSome_iff_exists.mp (hdist n List.mem_cons_self)
      have hrest : ∀ m ∈ ns, (dist m).isSome := fun m hm => hdist m (List.mem_cons_of_mem _ hm)
      rw [List.foldlM_cons]
      simp only [hd, Option.bind_eq_bind, Option.bind_some, pure]
      by_cases hlt : d.lt cur.dist = true
      · rw [if_pos hlt]
        obtain ⟨cur', moved', count', hfold, hcase⟩ := ih hrest ⟨d, n⟩ true (count + 1)
        refine ⟨cur', moved', count', hfold, .inr ?_⟩
        rcases hcase with ⟨rfl, rfl, -⟩ | ⟨rfl, hmem, hcur, hlt'⟩
        · exact ⟨rfl, List.mem_cons_self, hd, hlt⟩
        · exact ⟨rfl, List.mem_cons_of_mem _ hmem, hcur, F32.lt_trans hlt' hlt⟩
      · rw [if_neg hlt]
        obtain ⟨cur', moved', count', hfold, hcase⟩ := ih hrest cur moved (count + 1)
        refine ⟨cur', moved', count', hfold, ?_⟩
        rcases hcase with ⟨rfl, rfl, hnone⟩ | ⟨rfl, hmem, hcur, hlt'⟩
        · refine .inl ⟨rfl, rfl, fun m hm d' hd' => ?_⟩
          rcases List.mem_cons.mp hm with rfl | hm
          · obtain rfl := Option.some.inj (hd.symm.trans hd')
            exact Bool.eq_false_of_not_eq_true hlt
          · exact hnone m hm d' hd'
        · exact .inr ⟨rfl, List.mem_cons_of_mem _ hmem, hcur, hlt'⟩

/-- How many nodes are closer. -/
def closerCount (g : Hnsw) (dist : Nat → Option F32) (d : F32) : Nat :=
  ((List.range g.nodes.length).filter fun n => (dist n).any fun d' => d'.lt d).length

theorem closerCount_lt {cur : Near} {d : F32} (hid : cur.id < g.nodes.length) (hcur : dist cur.id = some cur.dist)
    (hlt : cur.dist.lt d = true) : g.closerCount dist cur.dist < g.closerCount dist d := by
  have hmem : cur.id ∈ (List.range g.nodes.length).filter fun n => (dist n).any fun d' => d'.lt d := by
    refine List.mem_filter.mpr ⟨List.mem_range.mpr hid, ?_⟩
    rw [hcur]
    exact hlt
  have hnot : cur.id ∉ (List.range g.nodes.length).filter fun n => (dist n).any fun d' => d'.lt cur.dist := by
    intro hin
    have hself := (List.mem_filter.mp hin).2
    rw [hcur, Option.any_some, F32.lt_irrefl] at hself
    cases hself
  have hsub : cur.id :: ((List.range g.nodes.length).filter fun n => (dist n).any fun d' => d'.lt cur.dist) ⊆
      (List.range g.nodes.length).filter fun n => (dist n).any fun d' => d'.lt d := by
    refine List.cons_subset.mpr ⟨hmem, fun n hn => ?_⟩
    obtain ⟨hn, hcloser⟩ := List.mem_filter.mp hn
    refine List.mem_filter.mpr ⟨hn, ?_⟩
    obtain ⟨d', hd', hlt'⟩ := (Option.any_eq_true _ _).mp hcloser
    exact (Option.any_eq_true _ _).mpr ⟨d', hd', F32.lt_trans hlt' hlt⟩
  have hnodup := List.nodup_cons.mpr ⟨hnot, (List.nodup_range (n := g.nodes.length)).filter _⟩
  exact (List.subperm_of_subset hnodup hsub).length_le

/-- Some link leads to the node. -/
def Led (g : Hnsw) (n : Nat) : Prop := ∃ level id ns, g.linksAt level id = some ns ∧ n ∈ ns

/-- The descent on a layer ends, at a node that none of its neighbours is closer than. -/
theorem greedyLoop_ends (hlinks : ∀ {id ns}, g.linksAt level id = some ns → ∀ n ∈ ns, (g.linksAt level n).isSome)
    (hdist : ∀ id < g.nodes.length, (dist id).isSome) {fuel : Nat} {cur : Near} (hcur : g.At level dist cur)
    (hfuel : g.closerCount dist cur.dist < fuel) (count : Nat) :
    ∃ cur' count', greedyLoop (g.linksAt level) dist fuel cur count = some (cur', count') ∧ g.At level dist cur' ∧
      (cur'.id = cur.id ∨ g.Led cur'.id) ∧ ∀ ns, g.linksAt level cur'.id = some ns → NoneCloser dist ns cur'.dist := by
  induction fuel generalizing cur count with
  | zero => exact absurd hfuel (Nat.not_lt_zero _)
  | succ fuel ih =>
      obtain ⟨ns, hns⟩ := Option.isSome_iff_exists.mp hcur.layer
      have hlayer (n : Nat) (hn : n ∈ ns) : (g.linksAt level n).isSome := hlinks hns n hn
      obtain ⟨cur', moved', count', hpass, hcase⟩ :=
        pass_loop (fun n hn => hdist n (lt_of_linksAt (hlayer n hn))) cur false count
      have hpass' : pass dist ns cur count = some (cur', moved', count') := hpass
      rw [greedyLoop, hns]
      simp only [Option.bind_eq_bind, Option.bind_some]
      rw [hpass', Option.bind_some]
      rcases hcase with ⟨rfl, rfl, hnone⟩ | ⟨rfl, hmem, hd, hlt⟩
      · refine ⟨cur', count', rfl, hcur, .inl rfl, fun ns' hns' => ?_⟩
        obtain rfl := Option.some.inj (hns.symm.trans hns')
        exact hnone
      · have hat : g.At level dist cur' := ⟨hlayer _ hmem, hd⟩
        have hless := closerCount_lt (lt_of_linksAt hat.layer) hd hlt
        obtain ⟨cur'', count'', hloop, hat'', hled, hnone⟩ := ih hat (by omega) count'
        refine ⟨cur'', count'', hloop, hat'', .inr ?_, hnone⟩
        rcases hled with heq | hled
        · exact ⟨level, cur.id, ns, hns, heq ▸ hmem⟩
        · exact hled

theorem greedy_ends (hlinks : ∀ {id ns}, g.linksAt level id = some ns → ∀ n ∈ ns, (g.linksAt level n).isSome)
    (hdist : ∀ id < g.nodes.length, (dist id).isSome) {cur : Near} (hcur : g.At level dist cur) (count : Nat) :
    ∃ cur' count', g.greedy cur level dist count = some (cur', count') ∧ g.At level dist cur' ∧
      (cur'.id = cur.id ∨ g.Led cur'.id) ∧ ∀ ns, g.linksAt level cur'.id = some ns → NoneCloser dist ns cur'.dist := by
  refine greedyLoop_ends hlinks hdist hcur (Nat.lt_succ_of_le ?_) count
  exact (List.length_filter_le _ _).trans (List.length_range (n := g.nodes.length)).le

/-- What no operation breaks: links stay on their layer, the entry is on the top one and the
key map leads to live nodes. -/
structure Linked (g : Hnsw) : Prop where
  links : ∀ {level id ns}, g.linksAt level id = some ns → ∀ n ∈ ns, (g.linksAt level n).isSome
  entry : g.entry ≠ none32 → (g.linksAt g.maxLevel g.entry).isSome
  empty : g.entry = none32 → g.nodes = []
  ids : ∀ {key id}, g.ids[key]? = some id → ∃ n : Node, g.nodes[id]? = some n ∧ n.key = key ∧ n.deleted = false

theorem descend_at (hlinks : ∀ {level id ns}, g.linksAt level id = some ns → ∀ n ∈ ns, (g.linksAt level n).isSome) (hdist : ∀ id < g.nodes.length, (dist id).isSome) (bottom : Nat) {cur : Near}
    (hcur : g.At g.maxLevel dist cur) (count : Nat) :
    ∃ cur' count', g.descend dist bottom cur count = some (cur', count') ∧ g.At (min bottom g.maxLevel) dist cur' ∧
      (cur'.id = cur.id ∨ g.Led cur'.id) := by
  have hdown (k : Nat) : ∀ {cur : Near} (count : Nat), g.At (bottom + k) dist cur → ∃ cur' count',
      (List.range' (bottom + 1) k).reverse.foldlM (fun (s : Near × Nat) l => g.greedy s.1 l dist s.2) (cur, count) =
        some (cur', count') ∧ g.At bottom dist cur' ∧ (cur'.id = cur.id ∨ g.Led cur'.id) := by
    induction k with
    | zero => exact fun _ hcur => ⟨_, _, rfl, hcur, .inl rfl⟩
    | succ k ih =>
        intro cur count hcur
        have hlevel : bottom + 1 + k = bottom + (k + 1) := by omega
        obtain ⟨cur₁, count₁, hgreedy, h₁, hled₁, -⟩ := greedy_ends hlinks hdist hcur count
        obtain ⟨cur', count', hfold, h', hled⟩ := ih count₁ (h₁.mono (by omega))
        refine ⟨cur', count', ?_, h', ?_⟩
        rotate_left
        · rcases hled with heq | hled
          · rw [heq]
            exact hled₁
          · exact .inr hled
        rw [List.range'_1_concat, List.reverse_append, List.reverse_singleton, List.singleton_append, List.foldlM_cons, hlevel]
        dsimp only
        rw [hgreedy]
        exact hfold
  by_cases hle : bottom ≤ g.maxLevel
  · have htop : bottom + (g.maxLevel - bottom) = g.maxLevel := by omega
    rw [Nat.min_eq_left hle]
    exact hdown (g.maxLevel - bottom) count (htop.symm ▸ hcur)
  · have hnone : g.maxLevel - bottom = 0 := by omega
    rw [Nat.min_eq_right (by omega)]
    refine ⟨cur, count, ?_, hcur, .inl rfl⟩
    rw [descend, hnone]
    rfl

section

variable [Floats] {p : Probe} {hidden : Option Nat}

theorem distTo_isSome (p : Probe) : ∀ id < g.nodes.length, (g.distTo p id).isSome := by
  intro id hid
  rw [distTo, List.getElem?_eq_getElem hid]
  simp only [Option.bind_eq_bind, Option.bind_some]
  cases g.nodes[id].vector <;> rfl

theorem distNodes_isSome {a : Nat} (ha : a < g.nodes.length) : ∀ id < g.nodes.length, (g.distNodes a id).isSome := by
  intro id hid
  rw [distNodes, List.getElem?_eq_getElem ha, List.getElem?_eq_getElem hid]
  simp only [Option.bind_eq_bind, Option.bind_some]
  cases g.nodes[a].vector <;> cases g.nodes[id].vector <;> rfl

theorem away_isSome (p : Probe) (hidden : Option Nat) : ∀ id < g.nodes.length, (g.away p hidden id).isSome := by
  intro id hid
  unfold away
  split
  · rfl
  · exact distTo_isSome p id hid

end

theorem Linked.ready (hg : g.Linked) (hdist : ∀ id < g.nodes.length, (dist id).isSome)
    (hallow : ∀ id < g.nodes.length, (allow id).isSome) : g.Ready level dist allow :=
  ⟨hg.links, hdist, hallow⟩

theorem At.roots {cur : Near} (h : g.At level dist cur) : g.Roots level [cur] :=
  ⟨List.nodup_singleton _, fun e he => by rw [List.mem_singleton.mp he]; exact h.layer⟩

/-- What is found, closest first. -/
structure Ascending (dist : Nat → Option F32) (near : List Near) : Prop where
  order : near.Pairwise fun a b => Near.cmp a b = .lt
  dist : ∀ a ∈ near, dist a.id = some a.dist

theorem ascending_of_done {entry : List Near} {w : Walk Nat Near} (hdone : (g.space level ef dist allow).Done entry w)
    (hentry : ∀ e ∈ entry, dist e.id = some e.dist) : Ascending dist w.best.reverse := by
  constructor
  · rw [List.pairwise_reverse]
    have hnodup : w.best.Pairwise fun a b => a.id ≠ b.id := List.pairwise_map.mp hdone.sound.best_nodup
    refine (hdone.sound.best_descending.and hnodup).imp fun {a b} hab => ?_
    obtain ⟨hle, hne⟩ := hab
    cases hcmp : Near.cmp b a with
    | lt => rfl
    | eq =>
        have hid : compare b.id a.id = .eq := (Ordering.then_eq_eq.mp hcmp).2
        exact absurd (compare_eq_iff_eq.mp hid).symm hne
    | gt =>
        have hgt : (g.space level ef dist allow).cmp b a = .gt := hcmp
        rw [hgt] at hle
        cases hle
  · intro a ha
    rcases (hdone.sound.best_seen a (List.mem_reverse.mp ha)).2.2 with hroot | hview
    · exact hentry a hroot
    · obtain ⟨d, hd, hfound⟩ := Option.bind_eq_some_iff.mp (show view dist a.id = some a from hview)
      split at hfound
      · cases hfound
      · rw [hd, ← Option.some.inj hfound]

theorem Ascending.sublist {near near' : List Near} (h : Ascending dist near) (hsub : near'.Sublist near) :
    Ascending dist near' := ⟨h.order.sublist hsub, fun a ha => h.dist a (hsub.subset ha)⟩

/-- The nodes of a layer that a way over nodes not infinitely far leads to. -/
def Met (g : Hnsw) (level : Nat) (dist : Nat → Option F32) (start : Near) (id : Nat) : Prop :=
  Relation.ReflTransGen (fun m n => n ∈ (g.linksAt level m).getD [] ∧ (view dist n).isSome) start.id id

theorem Met.reached {start : Near} {id : Nat} (h : g.Met level dist start id) :
    (g.space level ef dist allow).Reached [start] id := ⟨start, List.mem_singleton_self _, h⟩

/-- Room for all nodes is room for all that are met. -/
theorem complete_of_room {start : Near} {w : Walk Nat Near} (hdone : (g.space level ef dist allow).Done [start] w)
    (hlayer : ∀ n ∈ w.seen, (g.linksAt level n).isSome) (hlinks : ∀ {id ns}, g.linksAt level id = some ns → ∀ n ∈ ns,
      (g.linksAt level n).isSome) (hstart : (g.linksAt level start.id).isSome) (hroom : g.nodes.length ≤ ef) {id : Nat}
    (hmet : g.Met level dist start id) (hallow : (allow id).getD false) : id ∈ w.best.map Near.id := by
  by_cases hlt : w.best.length < ef
  · exact hdone.complete hlt id hmet.reached hallow
  · have hid : (g.linksAt level id).isSome := by
      clear hallow
      induction hmet with
      | refl => exact hstart
      | @tail m n _ hlead ih =>
          obtain ⟨ns, hns⟩ := Option.isSome_iff_exists.mp ih
          refine hlinks hns n ?_
          have hmem := hlead.1
          rwa [hns] at hmem
    have hsub : w.best.map Near.id ⊆ List.range g.nodes.length := by
      intro n hn
      obtain ⟨a, ha, rfl⟩ := List.mem_map.mp hn
      exact List.mem_range.mpr (lt_of_linksAt (hlayer _ (hdone.sound.best_seen a ha).1))
    have hperm : (w.best.map Near.id).Perm (List.range g.nodes.length) := by
      refine (List.subperm_of_subset hdone.sound.best_nodup hsub).perm_of_length_le ?_
      rw [List.length_map, List.length_range]
      omega
    exact hperm.mem_iff.mpr (List.mem_range.mpr (lt_of_linksAt hid))

section

variable [Floats] {accept : String → Bool} {hidden : Option Nat} {k : Nat} {start : Near} {found : List Near}

/-- The node with an id. -/
def nodeAt (g : Hnsw) (id : Nat) : Node := (g.nodes[id]?).getD ⟨"", .full [], F32.zero, [], true⟩

/-- A live node whose key is accepted. -/
def wanted (g : Hnsw) (accept : String → Bool) (id : Nat) : Bool := !(g.nodeAt id).deleted && accept (g.nodeAt id).key

/-- The keys of nodes. -/
def keysOf (g : Hnsw) (near : List Near) : List String := near.map fun a => (g.nodeAt a.id).key

/-- The nodes answered. -/
structure Answers (g : Hnsw) (dist : Nat → Option F32) (accept : String → Bool) (hidden : Option Nat) (k : Nat)
    (near : List Near) : Prop where
  ascending : Ascending dist near
  wanted : ∀ a ∈ near, a.id < g.nodes.length ∧ g.wanted accept a.id = true ∧ some a.id ≠ hidden
  length : near.length ≤ k

/-- A node met and wanted is answered, unless as many that come before it are. -/
def Nearest (g : Hnsw) (dist : Nat → Option F32) (accept : String → Bool) (hidden : Option Nat) (start : Near) (k : Nat)
    (near : List Near) : Prop :=
  ∀ id, g.Met 0 dist start id → g.wanted accept id = true → some id ≠ hidden →
    id ∈ near.map Near.id ∨ (near.length = k ∧ ∀ a ∈ near, ∀ d, dist id = some d → Near.cmp a ⟨d, id⟩ = .lt)

omit [Floats] in
theorem getElem?_nodeAt {id : Nat} (h : id < g.nodes.length) : g.nodes[id]? = some (g.nodeAt id) := by
  rw [nodeAt, List.getElem?_eq_getElem h]
  rfl

omit [Floats] in
theorem mapM_node {near : List Near} (h : ∀ a ∈ near, a.id < g.nodes.length) :
    near.mapM (fun a => g.nodes[a.id]?) = some (near.map fun a => g.nodeAt a.id) := by
  induction near with
  | nil => rfl
  | cons a near ih =>
      rw [List.mapM_cons, ih fun b hb => h b (List.mem_cons_of_mem _ hb), getElem?_nodeAt (h a List.mem_cons_self)]
      rfl

omit [Floats] in
theorem mapM_key {near : List Near} (h : ∀ a ∈ near, a.id < g.nodes.length) :
    near.mapM (fun a => (g.nodes[a.id]?).map Node.key) = some (g.keysOf near) := by
  induction near with
  | nil => rfl
  | cons a near ih =>
      rw [List.mapM_cons, ih fun b hb => h b (List.mem_cons_of_mem _ hb), getElem?_nodeAt (h a List.mem_cons_self)]
      rfl

omit [Floats] in
theorem answers_eq (hfound : ∀ a ∈ found, a.id < g.nodes.length) :
    g.answers accept k hidden found =
      some (g.keysOf (((found.filter fun a => some a.id ≠ hidden).filter fun a => g.wanted accept a.id).take k)) := by
  rw [answers, mapM_node fun a ha => hfound a (List.mem_of_mem_filter ha)]
  simp only [Option.bind_eq_bind, Option.bind_some, List.filter_map, keysOf, ← List.map_take, List.map_map]
  rfl

omit [Floats] in
/-- The first of what is found and wanted is answered. -/
theorem answers_of_found (hasc : Ascending dist found) (hfound : ∀ a ∈ found, a.id < g.nodes.length) :
    g.Answers dist accept hidden k
      (((found.filter fun a => some a.id ≠ hidden).filter fun a => g.wanted accept a.id).take k) := by
  have hsub := (List.take_sublist k _).trans ((List.filter_sublist (l := found.filter fun a => some a.id ≠ hidden)
    (p := fun a => g.wanted accept a.id)).trans List.filter_sublist)
  refine ⟨hasc.sublist hsub, fun a ha => ?_, List.length_take_le _ _⟩
  obtain ⟨hin, hw⟩ := List.mem_filter.mp (List.mem_of_mem_take ha)
  have hnot := (List.mem_filter.mp hin).2
  exact ⟨hfound a (hsub.subset ha), hw, of_decide_eq_true hnot⟩

omit [Floats] in
theorem nearest_of_found (hasc : Ascending dist found)
    (hall : ∀ id, g.Met 0 dist start id → g.wanted accept id = true → id ∈ found.map Near.id) :
    g.Nearest dist accept hidden start k
      (((found.filter fun a => some a.id ≠ hidden).filter fun a => g.wanted accept a.id).take k) := by
  intro id hmet hw hnot
  obtain ⟨a₀, hin, rfl⟩ := List.mem_map.mp (hall id hmet hw)
  have hpair := hasc.order.sublist ((List.filter_sublist (l := found.filter fun a => some a.id ≠ hidden)
    (p := fun a => g.wanted accept a.id)).trans List.filter_sublist)
  set l := (found.filter fun a => some a.id ≠ hidden).filter fun a => g.wanted accept a.id
  have hl : a₀ ∈ l := List.mem_filter.mpr ⟨List.mem_filter.mpr ⟨hin, decide_eq_true hnot⟩, hw⟩
  rw [← List.take_append_drop k l] at hl
  rcases List.mem_append.mp hl with hfirst | hlast
  · exact .inl (List.mem_map_of_mem hfirst)
  · refine .inr ⟨?_, fun a ha d hd => ?_⟩
    · have hpos := List.length_pos_of_mem hlast
      rw [List.length_drop] at hpos
      rw [List.length_take]
      omega
    · rw [← List.take_append_drop k l] at hpair
      have hlt := (List.pairwise_append.mp hpair).2.2 a ha a₀ hlast
      have hd₀ := hasc.dist a₀ hin
      obtain rfl := Option.some.inj (hd.symm.trans hd₀)
      exact hlt

variable (accept) in
/-- The rounds of a search: each one widens what it keeps, until enough is found or nothing is left out. -/
theorem widen_answers (hg : g.Linked) (p : Probe) (hstart : g.At 0 (g.away p hidden) start) {fuel : Nat} (ef : Nat) (hk : 0 < k)
    (hef : k ≤ ef) (hpos : 0 < fuel) (hfuel : g.nodes.length < fuel + ef) (compared : Nat) :
    ∃ near compared', g.Answers (g.away p hidden) accept hidden k near ∧
      ((near.length < k ∨ g.nodes.length ≤ ef) → g.Nearest (g.away p hidden) accept hidden start k near) ∧
      ∀ v : Visits, v.Old → ∃ v', v'.Old ∧
        g.widen p k accept hidden start fuel ef compared v = some (⟨g.keysOf near, compared'⟩, v') := by
  induction fuel generalizing ef compared with
  | zero => exact absurd hpos (Nat.not_lt_zero 0)
  | succ fuel ih =>
      have hready : g.Ready 0 (g.away p hidden) fun _ => some true := hg.ready (away_isSome p hidden) fun _ _ => rfl
      obtain ⟨w, hdone, hlayer, hrun⟩ := searchLayerWith_walk ef hready hstart.roots compared
      have hasc := ascending_of_done hdone fun e he => by
        rw [List.mem_singleton.mp he]
        exact hstart.dist
      have hfound : ∀ a ∈ w.best.reverse, a.id < g.nodes.length := fun a ha =>
        lt_of_linksAt (hlayer _ (hdone.sound.best_seen a (List.mem_reverse.mp ha)).1)
      set near := ((w.best.reverse.filter fun a => some a.id ≠ hidden).filter fun a => g.wanted accept a.id).take k with hnear
      have hround (v : Visits) (hv : v.Old) : ∃ v', v'.Old ∧ g.widen p k accept hidden start (fuel + 1) ef compared v =
          if (k ≤ near.length || g.nodes.length ≤ ef) = true then some (⟨g.keysOf near, w.count⟩, v')
          else g.widen p k accept hidden start fuel (Nat.min (ef * 2) g.nodes.length) w.count v' := by
        obtain ⟨v', hold, hsearch⟩ := hrun v hv
        refine ⟨v', hold, ?_⟩
        have hkeys : (g.keysOf near).length = near.length := List.length_map _
        rw [widen, searchLayer, hsearch]
        simp only [Option.bind_eq_bind, Option.bind_some]
        rw [answers_eq hfound, Option.bind_some, ← hnear, hkeys]
        rfl
      by_cases hstop : (decide (k ≤ near.length) || decide (g.nodes.length ≤ ef)) = true
      · refine ⟨near, w.count, answers_of_found hasc hfound, fun hroom => ?_, fun v hv => ?_⟩
        · have hroom' : g.nodes.length ≤ ef := by
            rcases hroom with hless | hroom
            · rw [Bool.or_eq_true, decide_eq_true_eq, decide_eq_true_eq] at hstop
              exact hstop.resolve_left (Nat.not_le.mpr hless)
            · exact hroom
          refine nearest_of_found hasc fun id hmet _ => ?_
          rw [List.map_reverse, List.mem_reverse]
          exact complete_of_room hdone hlayer hg.links hstart.layer hroom' hmet rfl
        · obtain ⟨v', hold, hwiden⟩ := hround v hv
          rw [if_pos hstop] at hwiden
          exact ⟨v', hold, hwiden⟩
      · have hmore : ¬ k ≤ near.length ∧ ¬ g.nodes.length ≤ ef := by
          simpa only [Bool.or_eq_true, decide_eq_true_eq, not_or] using hstop
        have hwider : ef < Nat.min (ef * 2) g.nodes.length := Nat.lt_min.mpr ⟨by omega, by omega⟩
        obtain ⟨near', compared', hanswers, hnearest, hrest⟩ := ih (Nat.min (ef * 2) g.nodes.length)
          (by omega) (by omega) (by omega) w.count
        refine ⟨near', compared', hanswers, fun hroom => hnearest ?_, fun v hv => ?_⟩
        · exact .inl (hroom.resolve_right hmore.2)
        · obtain ⟨v₁, hold₁, hwiden⟩ := hround v hv
          obtain ⟨v', hold, hwiden'⟩ := hrest v₁ hold₁
          rw [if_neg hstop] at hwiden
          exact ⟨v', hold, hwiden.trans hwiden'⟩

theorem widen_visits (v : Visits) {p : Probe} {cur : Near} {fuel ef compared : Nat} {u : Visits} :
    Hnsw.widen { g with visits := v } p k accept hidden cur fuel ef compared u =
      g.widen p k accept hidden cur fuel ef compared u := by
  induction fuel generalizing ef compared u with
  | zero => rfl
  | succ fuel ih =>
      rw [widen, widen]
      simp only [ih]
      rfl

omit [Floats] in
theorem Answers.nil : g.Answers dist accept hidden k [] :=
  ⟨⟨.nil, fun _ ha => absurd ha List.not_mem_nil⟩, fun _ ha => absurd ha List.not_mem_nil, Nat.zero_le k⟩

/-- Where the search of the bottom layer begins. -/
def StartsAt (g : Hnsw) (dist : Nat → Option F32) (start : Near) : Prop :=
  ∃ d count, dist g.entry = some d ∧ g.descend dist 0 ⟨d, g.entry⟩ 1 = some (start, count)

omit [Floats] in
theorem startsAt (hg : g.Linked) (hentry : g.entry ≠ none32) (hdist : ∀ id < g.nodes.length, (dist id).isSome) :
    ∃ start d compared, dist g.entry = some d ∧ g.descend dist 0 ⟨d, g.entry⟩ 1 = some (start, compared) ∧ g.At 0 dist start := by
  have hlayer := hg.entry hentry
  obtain ⟨d, hd⟩ := Option.isSome_iff_exists.mp (hdist _ (lt_of_linksAt hlayer))
  have htop : g.At g.maxLevel dist ⟨d, g.entry⟩ := ⟨hlayer, hd⟩
  obtain ⟨start, compared, hdescend, hat, -⟩ := descend_at hg.links hdist 0 htop 1
  rw [Nat.zero_min] at hat
  exact ⟨start, d, compared, hd, hdescend, hat⟩

/-- What a search answers, whatever searches came before it. -/
theorem searchHiding_answers (hg : g.Linked) (query : List F32) (k ef : Nat) (accept : String → Bool) (hidden : Option String) :
    ∃ near compared, g.Answers (g.away (.new query) (g.hiddenNode hidden)) accept (g.hiddenNode hidden) k near ∧
      (∀ v : Visits, v.Old → ∃ v', v'.Old ∧
        Hnsw.searchHiding { g with visits := v } query k ef accept hidden = some (⟨g.keysOf near, compared⟩, v')) ∧
      (0 < k → g.entry ≠ none32 → (near.length < k ∨ g.nodes.length ≤ ef) →
        ∃ start, g.StartsAt (g.away (.new query) (g.hiddenNode hidden)) start ∧
          g.Nearest (g.away (.new query) (g.hiddenNode hidden)) accept (g.hiddenNode hidden) start k near) := by
  by_cases hnone : g.entry = none32 ∨ k = 0
  · have hstop : (decide (g.entry = none32) || decide (k = 0)) = true := by
      rwa [Bool.or_eq_true, decide_eq_true_eq, decide_eq_true_eq]
    refine ⟨[], 0, .nil, fun v hv => ⟨v, hv, if_pos hstop⟩, fun hk hentry _ => ?_⟩
    exact absurd hnone (not_or.mpr ⟨hentry, hk.ne'⟩)
  · obtain ⟨hentry, hk⟩ := not_or.mp hnone
    obtain ⟨start, d, count, hd, hdescend, hat⟩ := startsAt hg hentry (away_isSome (.new query) (g.hiddenNode hidden))
    obtain ⟨near, compared, hanswers, hnearest, hrun⟩ := widen_answers accept hg (.new query) hat (Nat.max ef k)
      (Nat.pos_of_ne_zero hk) (Nat.le_max_right _ _) (Nat.succ_pos g.nodes.length) (by omega) count
    refine ⟨near, compared, hanswers, fun v hv => ?_, fun _ _ hroom => ⟨start, ⟨d, count, hd, hdescend⟩, hnearest ?_⟩⟩
    · obtain ⟨v', hold, hwiden⟩ := hrun v hv
      refine ⟨v', hold, ?_⟩
      have hgo : ¬ (decide (g.entry = none32) || decide (k = 0)) = true := by
        rwa [Bool.or_eq_true, decide_eq_true_eq, decide_eq_true_eq]
      refine (if_neg hgo).trans ?_
      change (g.away (.new query) (g.hiddenNode hidden) g.entry).bind _ = _
      rw [hd, Option.bind_some]
      change (g.descend (g.away (.new query) (g.hiddenNode hidden)) 0 ⟨d, g.entry⟩ 1).bind _ = _
      rw [hdescend]
      exact (widen_visits v).trans hwiden
    · exact hroom.imp_right fun hle => hle.trans (Nat.le_max_left _ _)

omit [Floats] in
theorem allow_isSome (accept : String → Bool) : ∀ id < g.nodes.length,
    ((g.nodes[id]?).map fun n => !n.deleted && accept n.key).isSome := by
  intro id hid
  rw [List.getElem?_eq_getElem hid]
  rfl

omit [Floats] in
theorem allow_eq {id : Nat} : ((g.nodes[id]?).map fun n => !n.deleted && accept n.key).getD false = g.wanted accept id := by
  unfold wanted nodeAt
  cases g.nodes[id]? <;> rfl

/-- What a filtered search answers, whatever searches came before it. -/
theorem searchFiltered_answers (hg : g.Linked) (query : List F32) (k ef : Nat) (accept : String → Bool) :
    ∃ near compared, g.Answers (g.distTo (.new query)) accept none k near ∧
      (∀ v : Visits, v.Old → ∃ v', v'.Old ∧
        Hnsw.searchFiltered { g with visits := v } query k ef accept = some (⟨g.keysOf near, compared⟩, v')) ∧
      (0 < k → g.entry ≠ none32 → (near.length < k ∨ g.nodes.length ≤ ef) →
        ∃ start, g.StartsAt (g.distTo (.new query)) start ∧ g.Nearest (g.distTo (.new query)) accept none start k near) := by
  by_cases hnone : g.entry = none32 ∨ k = 0
  · have hstop : (decide (g.entry = none32) || decide (k = 0)) = true := by
      rwa [Bool.or_eq_true, decide_eq_true_eq, decide_eq_true_eq]
    refine ⟨[], 0, .nil, fun v hv => ⟨v, hv, if_pos hstop⟩, fun hk hentry _ => ?_⟩
    exact absurd hnone (not_or.mpr ⟨hentry, hk.ne'⟩)
  · obtain ⟨hentry, hk⟩ := not_or.mp hnone
    obtain ⟨start, d, count, hd, hdescend, hat⟩ := startsAt hg hentry (distTo_isSome (.new query))
    have hready : g.Ready 0 (g.distTo (.new query)) fun id => (g.nodes[id]?).map fun n => !n.deleted && accept n.key :=
      hg.ready (distTo_isSome (.new query)) (allow_isSome accept)
    obtain ⟨w, hdone, hlayer, hrun⟩ := searchLayerWith_walk (Nat.max ef k) hready hat.roots count
    have hasc := ascending_of_done hdone fun e he => by
      rw [List.mem_singleton.mp he]
      exact hat.dist
    have hfound : ∀ a ∈ w.best.reverse, a.id < g.nodes.length := fun a ha =>
      lt_of_linksAt (hlayer _ (hdone.sound.best_seen a (List.mem_reverse.mp ha)).1)
    have hwanted : ∀ a ∈ w.best.reverse, g.wanted accept a.id = true := fun a ha =>
      allow_eq.symm.trans (hdone.sound.best_seen a (List.mem_reverse.mp ha)).2.1
    refine ⟨w.best.reverse.take k, w.count, ⟨hasc.sublist (List.take_sublist k _), fun a ha => ?_, List.length_take_le _ _⟩,
      fun v hv => ?_, fun _ _ hroom => ⟨start, ⟨d, count, hd, hdescend⟩, ?_⟩⟩
    · have ha := List.mem_of_mem_take ha
      refine ⟨hfound a ha, hwanted a ha, ?_⟩
      rintro ⟨⟩
    · obtain ⟨v', hold, hsearch⟩ := hrun v hv
      refine ⟨v', hold, ?_⟩
      have hgo : ¬ (decide (g.entry = none32) || decide (k = 0)) = true := by
        rwa [Bool.or_eq_true, decide_eq_true_eq, decide_eq_true_eq]
      have hkeys : (w.best.reverse.take k).mapM (fun n => (g.nodes[n.id]?).map Node.key) =
          some (g.keysOf (w.best.reverse.take k)) := mapM_key fun a ha => hfound a (List.mem_of_mem_take ha)
      refine (if_neg hgo).trans ?_
      change (g.distTo (.new query) g.entry).bind _ = _
      rw [hd, Option.bind_some]
      change (g.descend (g.distTo (.new query)) 0 ⟨d, g.entry⟩ 1).bind _ = _
      rw [hdescend, Option.bind_some]
      change (Hnsw.searchLayerWith { g with visits := v } [start] (Nat.max ef k) 0 (g.distTo (.new query))
        (fun id => (g.nodes[id]?).map fun n => !n.deleted && accept n.key) count).bind _ = _
      rw [hsearch, Option.bind_some]
      change ((w.best.reverse.take k).mapM fun n => (g.nodes[n.id]?).map Node.key).bind _ = _
      rw [hkeys]
      rfl
    · have hnear : w.best.reverse.take k = (((w.best.reverse.filter fun a => some a.id ≠ none).filter
          fun a => g.wanted accept a.id).take k) := by
        rw [List.filter_eq_self.mpr fun a _ => decide_eq_true (Option.some_ne_none _), List.filter_eq_self.mpr hwanted]
      rw [hnear]
      refine nearest_of_found hasc fun id hmet hw => ?_
      rw [List.map_reverse, List.mem_reverse]
      have hallow : ((g.nodes[id]?).map fun n => !n.deleted && accept n.key).getD false = true := allow_eq.trans hw
      by_cases hle : g.nodes.length ≤ ef
      · exact complete_of_room hdone hlayer hg.links hat.layer (hle.trans (Nat.le_max_left _ _)) hmet hallow
      · have hless := hroom.resolve_right hle
        rw [List.length_take, List.length_reverse] at hless
        have hshort : w.best.length < Nat.max ef k := lt_of_lt_of_le (by omega) (Nat.le_max_right ef k)
        exact hdone.complete hshort id hmet.reached hallow

end

end Hnsw

end KivaDb.Vector
