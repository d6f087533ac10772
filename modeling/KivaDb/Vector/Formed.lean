import KivaDb.Vector.Search

namespace KivaDb.Vector

open Std (ExtTreeMap)
open Lib.Heap Lib.BestFirst Lib.LittleEndian

/-- A node without its links, its layers kept. -/
def Node.bone (n : Node) : Node := { n with links := List.replicate n.links.length [] }

namespace Hnsw

variable {g g' g₀ : Hnsw} {level id : Nat}

/-- The graph without its links and marks. -/
def bones (g : Hnsw) : Hnsw := { g with nodes := g.nodes.map Node.bone, visits := ⟨[], 0⟩ }

/-- Links lead to nodes of their layer. -/
def Layered (g : Hnsw) : Prop := ∀ {level id ns}, g.linksAt level id = some ns → ∀ n ∈ ns, (g.linksAt level n).isSome

/-- No node has more links than its layer has, one twice or one to itself. -/
def Bounded (g : Hnsw) : Prop :=
  ∀ {level id ns}, g.linksAt level id = some ns → ns.length ≤ g.params.maxLinks level ∧ ns.Nodup ∧ id ∉ ns

theorem isSome_linksAt : (g.linksAt level id).isSome ↔ ∃ n, g.nodes[id]? = some n ∧ level < n.links.length := by
  rw [linksAt]
  cases g.nodes[id]? with
  | none => exact iff_of_false Bool.false_ne_true fun h => by obtain ⟨n, hn, -⟩ := h; cases hn
  | some n =>
      have hlinks : (n.links[level]?).isSome ↔ level < n.links.length := by simp
      refine hlinks.trans ⟨fun h => ⟨n, rfl, h⟩, fun h => ?_⟩
      obtain ⟨m, hm, hlt⟩ := h
      rwa [Option.some.inj hm]

theorem node_of_bones (h : g.bones = g'.bones) {n : Node} (hn : g.nodes[id]? = some n) :
    ∃ n', g'.nodes[id]? = some n' ∧ n'.bone = n.bone := by
  have hnodes : g.nodes.map Node.bone = g'.nodes.map Node.bone := congrArg Hnsw.nodes h
  have hget : (g.nodes.map Node.bone)[id]? = (g'.nodes.map Node.bone)[id]? := by rw [hnodes]
  rw [List.getElem?_map, List.getElem?_map, hn, Option.map_some] at hget
  obtain ⟨n', hn', hbone⟩ := Option.map_eq_some_iff.mp hget.symm
  exact ⟨n', hn', hbone⟩

theorem levels_of_bone {n n' : Node} (h : n.bone = n'.bone) : n.links.length = n'.links.length := by
  have hlen := congrArg (fun n : Node => n.links.length) h
  simpa [Node.bone] using hlen

/-- The layers are those of the bones. -/
theorem isSome_of_bones (h : g.bones = g'.bones) (hs : (g.linksAt level id).isSome) : (g'.linksAt level id).isSome := by
  obtain ⟨n, hn, hlt⟩ := isSome_linksAt.mp hs
  obtain ⟨n', hn', hbone⟩ := node_of_bones h hn
  exact isSome_linksAt.mpr ⟨n', hn', (levels_of_bone hbone).symm ▸ hlt⟩

theorem length_of_bones (h : g.bones = g'.bones) : g.nodes.length = g'.nodes.length := by
  have hlen := congrArg (fun g : Hnsw => g.nodes.length) h
  simpa [bones] using hlen

/-- What the bones of a graph show of it. -/
structure SameBooks (g g' : Hnsw) : Prop where
  params : g.params = g'.params
  ids : g.ids = g'.ids
  entry : g.entry = g'.entry
  maxLevel : g.maxLevel = g'.maxLevel
  deleted : g.deleted = g'.deleted
  bytes : g.bytes = g'.bytes

theorem books_of_bones (h : g.bones = g'.bones) : g.SameBooks g' := by
  simp only [bones, Hnsw.mk.injEq] at h
  obtain ⟨hparams, -, hids, hentry, hmax, hdeleted, -, -, hbytes, -⟩ := h
  exact ⟨hparams, hids, hentry, hmax, hdeleted, hbytes⟩

theorem params_of_bones (h : g.bones = g'.bones) : g.params = g'.params := (books_of_bones h).params

/-- What the bone of a node shows of it. -/
theorem alike_of_bone {n m : Node} (h : n.bone = m.bone) :
    n.key = m.key ∧ n.vector = m.vector ∧ n.norm = m.norm ∧ n.deleted = m.deleted := by
  simp only [Node.bone, Node.mk.injEq] at h
  obtain ⟨hkey, hvector, hnorm, -, hdeleted⟩ := h
  exact ⟨hkey, hvector, hnorm, hdeleted⟩

/-- What linking a new node does to a graph: only links change, and they stay as they must be. -/
structure Grown (g g' : Hnsw) : Prop where
  bones : g'.bones = g.bones
  layered : g.Layered → g'.Layered
  bounded : g.Bounded → g'.Bounded
  visits : g.visits.Old → g'.visits.Old

theorem Grown.refl (g : Hnsw) : g.Grown g := ⟨rfl, fun h => h, fun h => h, fun h => h⟩

theorem Grown.trans {g₁ g₂ g₃ : Hnsw} (h : g₁.Grown g₂) (h' : g₂.Grown g₃) : g₁.Grown g₃ :=
  ⟨h'.bones.trans h.bones, fun hl => h'.layered (h.layered hl), fun hb => h'.bounded (h.bounded hb),
    fun hv => h'.visits (h.visits hv)⟩

theorem Grown.isSome (h : g.Grown g') (hs : (g.linksAt level id).isSome) : (g'.linksAt level id).isSome :=
  isSome_of_bones h.bones.symm hs

/-- The graphs differ in the links of one node on one layer. -/
def Sets (g g' : Hnsw) (level id : Nat) (ns : List Nat) : Prop :=
  g'.bones = g.bones ∧ g'.visits = g.visits ∧ ∀ l i, g'.linksAt l i = if l = level ∧ i = id then some ns else g.linksAt l i

theorem setLinks_eq (h : (g.linksAt level id).isSome) (ns : List Nat) :
    ∃ g', g.setLinks id level ns = some g' ∧ g.Sets g' level id ns := by
  obtain ⟨n, hn, hlt⟩ := isSome_linksAt.mp h
  have hid := (List.getElem?_eq_some_iff.mp hn).1
  refine ⟨{ g with nodes := g.nodes.set id { n with links := n.links.set level ns } }, ?_, ?_, rfl, fun l i => ?_⟩
  · rw [setLinks, hn]
    exact if_pos hlt
  · have hnodes : (g.nodes.set id { n with links := n.links.set level ns }).map Node.bone = g.nodes.map Node.bone := by
      refine List.ext_getElem? fun i => ?_
      rw [List.getElem?_map, List.getElem?_map, List.getElem?_set]
      split
      · next heq =>
        subst heq
        rw [hn, Option.map_some, Option.map_some, Node.bone, List.length_set]
        rfl
      · rfl
    rw [bones, hnodes]
    rfl
  · rw [linksAt, linksAt, List.getElem?_set]
    by_cases hi : id = i
    · subst hi
      rw [if_pos rfl, if_pos hid, hn]
      simp only [Option.bind_eq_bind, Option.bind_some, List.getElem?_set, and_true]
      by_cases hl : level = l
      · subst hl
        rw [if_pos rfl, if_pos rfl, if_pos hlt]
      · rw [if_neg hl, if_neg (Ne.symm hl)]
    · rw [if_neg hi, if_neg fun hboth => hi hboth.2.symm]

/-- New links of a node on a layer. -/
theorem Sets.grown {ns : List Nat} (h : g.Sets g' level id ns) (hlayer : ∀ n ∈ ns, (g.linksAt level n).isSome)
    (hbound : g.Bounded → ns.length ≤ g.params.maxLinks level ∧ ns.Nodup ∧ id ∉ ns) : g.Grown g' := by
  obtain ⟨hbones, hvisits, hlinks⟩ := h
  have hold {l i : Nat} {ms : List Nat} (hms : g'.linksAt l i = some ms) :
      (l = level ∧ i = id ∧ ms = ns) ∨ g.linksAt l i = some ms := by
    rw [hlinks] at hms
    split at hms
    · next hboth => exact .inl ⟨hboth.1, hboth.2, (Option.some.inj hms).symm⟩
    · exact .inr hms
  refine ⟨hbones, fun hl l i ms hms n hn => ?_, fun hb l i ms hms => ?_, fun hv => hvisits ▸ hv⟩
  · rcases hold hms with ⟨rfl, rfl, rfl⟩ | hms
    · exact isSome_of_bones hbones.symm (hlayer n hn)
    · exact isSome_of_bones hbones.symm (hl hms n hn)
  · rw [params_of_bones hbones]
    rcases hold hms with ⟨rfl, rfl, rfl⟩ | hms
    · exact hbound hb
    · exact hb hms

theorem Sets.again {g₁ g₂ : Hnsw} {ns ms : List Nat} (h : g.Sets g₁ level id ns) (h' : g₁.Sets g₂ level id ms) :
    g.Sets g₂ level id ms := by
  refine ⟨h'.1.trans h.1, h'.2.1.trans h.2.1, fun l i => ?_⟩
  rw [h'.2.2, h.2.2]
  split <;> rfl

/-- Links of two graphs that differ on one layer only. -/
def SameBut (g g' : Hnsw) (level : Nat) : Prop := ∀ l ≠ level, ∀ i, g'.linksAt l i = g.linksAt l i

theorem SameBut.trans {g₁ g₂ g₃ : Hnsw} (h : g₁.SameBut g₂ level) (h' : g₂.SameBut g₃ level) : g₁.SameBut g₃ level :=
  fun l hl i => (h' l hl i).trans (h l hl i)

theorem Sets.sameBut {ns : List Nat} (h : g.Sets g' level id ns) : g.SameBut g' level := by
  intro l hl i
  rw [h.2.2, if_neg fun hboth => hl hboth.1]

section

variable [Floats]

theorem apart_isSome {c : Near} (hc : c.id < g.nodes.length) {kept : List Near} (hkept : ∀ k ∈ kept, k.id < g.nodes.length) :
    ∃ ok, g.apart c kept = some ok := by
  induction kept with
  | nil => exact ⟨true, rfl⟩
  | cons k kept ih =>
      obtain ⟨d, hd⟩ := Option.isSome_iff_exists.mp (distNodes_isSome hc k.id (hkept k List.mem_cons_self))
      obtain ⟨ok, hok⟩ := ih fun k' hk' => hkept k' (List.mem_cons_of_mem _ hk')
      rw [apart, hd]
      simp only [Option.bind_eq_bind, Option.bind_some]
      split
      · exact ⟨ok, hok⟩
      · exact ⟨false, rfl⟩

theorem choose_sub {m : Nat} {cs kept : List Near} (hcs : ∀ c ∈ cs, c.id < g.nodes.length)
    (hkept : ∀ k ∈ kept, k.id < g.nodes.length) (hm : kept.length ≤ m) (skipped : List Near) :
    ∃ kept' skipped', g.choose m cs kept skipped = some (kept', skipped') ∧ kept'.length ≤ m ∧
      (kept' ++ skipped').Subperm (kept ++ skipped ++ cs) := by
  induction cs generalizing kept skipped with
  | nil =>
      refine ⟨kept, skipped, rfl, hm, ?_⟩
      rw [List.append_nil]
  | cons c cs ih =>
      have hc := hcs c List.mem_cons_self
      have hrest : ∀ c' ∈ cs, c'.id < g.nodes.length := fun c' hc' => hcs c' (List.mem_cons_of_mem _ hc')
      rw [choose]
      split
      · exact ⟨kept, skipped, rfl, hm, (List.sublist_append_left _ _).subperm⟩
      · next hroom =>
        obtain ⟨ok, hok⟩ := apart_isSome hc hkept
        rw [hok]
        simp only [Option.bind_eq_bind, Option.bind_some]
        cases ok with
        | true =>
            have hkept' : ∀ k ∈ kept ++ [c], k.id < g.nodes.length := by
              intro k hk
              rcases List.mem_append.mp hk with hk | hk
              · exact hkept k hk
              · rw [List.mem_singleton.mp hk]
                exact hc
            have hlen : (kept ++ [c]).length ≤ m := by
              rw [List.length_append, List.length_singleton]
              omega
            obtain ⟨kept', skipped', hchoose, hm', hsub⟩ := ih hrest hkept' hlen skipped
            refine ⟨kept', skipped', hchoose, hm', hsub.trans (List.Perm.subperm ?_)⟩
            simp only [List.append_assoc, List.singleton_append]
            exact List.Perm.append_left kept List.perm_middle.symm
        | false =>
            obtain ⟨kept', skipped', hchoose, hm', hsub⟩ := ih hrest hkept hm (skipped ++ [c])
            refine ⟨kept', skipped', hchoose, hm', hsub.trans (List.Perm.subperm ?_)⟩
            simp only [List.append_assoc, List.singleton_append]
            exact .rfl

/-- The nodes selected are some of the candidates, at most as many as asked for. -/
theorem select_sub (candidates : List Near) (h : ∀ c ∈ candidates, c.id < g.nodes.length) (m : Nat) :
    ∃ ns, g.select candidates m = some ns ∧ ns.length ≤ m ∧ ns.Subperm (candidates.map Near.id) := by
  obtain ⟨kept, skipped, hchoose, hm, hsub⟩ :=
    choose_sub (m := m) h (fun k hk => absurd hk List.not_mem_nil) (Nat.zero_le m) []
  refine ⟨(kept ++ skipped.take (m - kept.length)).map Near.id, ?_, ?_, ?_⟩
  · rw [select, hchoose]
    rfl
  · rw [List.length_map, List.length_append, List.length_take]
    omega
  · obtain ⟨l, hperm, hl⟩ := ((List.take_sublist (m - kept.length) skipped).append_left kept).subperm.trans hsub
    exact ⟨l.map Near.id, hperm.map Near.id, hl.map Near.id⟩

theorem mapM_dist {from_ : Nat} (hfrom : from_ < g.nodes.length) {ns : List Nat} (hns : ∀ n ∈ ns, n < g.nodes.length) :
    ∃ near, (ns.mapM fun n => (g.distNodes from_ n).map fun d => (⟨d, n⟩ : Near)) = some near ∧ near.map Near.id = ns := by
  induction ns with
  | nil => exact ⟨[], rfl, rfl⟩
  | cons n ns ih =>
      obtain ⟨d, hd⟩ := Option.isSome_iff_exists.mp (distNodes_isSome hfrom n (hns n List.mem_cons_self))
      obtain ⟨near, hnear, hids⟩ := ih fun m hm => hns m (List.mem_cons_of_mem _ hm)
      refine ⟨⟨d, n⟩ :: near, ?_, by rw [List.map_cons, hids]⟩
      rw [List.mapM_cons, hd, hnear]
      rfl

/-- A link is added, and the links of a full node are pruned. -/
theorem link_grown {to_ from_ : Nat} (hl : g.Layered) (hfrom : (g.linksAt level from_).isSome) (hto : (g.linksAt level to_).isSome)
    (hne : from_ ≠ to_) : ∃ g', g.link level to_ from_ = some g' ∧ g.Grown g' ∧ g.SameBut g' level := by
  obtain ⟨links, hlinks⟩ := Option.isSome_iff_exists.mp hfrom
  rw [link, hlinks]
  simp only [Option.bind_eq_bind, Option.bind_some]
  by_cases hin : links.contains to_ = true
  · rw [if_pos hin]
    exact ⟨g, rfl, .refl g, fun _ _ _ => rfl⟩
  · rw [if_neg hin]
    have hnot : to_ ∉ links := by
      rwa [List.contains_iff_mem] at hin
    have hlayer : ∀ n ∈ links ++ [to_], (g.linksAt level n).isSome := by
      intro n hn
      rcases List.mem_append.mp hn with hn | hn
      · exact hl hlinks n hn
      · rw [List.mem_singleton.mp hn]
        exact hto
    have hnodup : g.Bounded → (links ++ [to_]).Nodup ∧ from_ ∉ links ++ [to_] := by
      intro hb
      obtain ⟨-, hnodup, hself⟩ := hb hlinks
      refine ⟨List.nodup_append.mpr ⟨hnodup, List.nodup_singleton _, ?_⟩, fun hmem => ?_⟩
      · intro a ha b hb' heq
        rw [heq, List.mem_singleton.mp hb'] at ha
        exact hnot ha
      · rcases List.mem_append.mp hmem with hmem | hmem
        · exact hself hmem
        · exact hne (List.mem_singleton.mp hmem)
    obtain ⟨g₁, hset, hsets⟩ := setLinks_eq hfrom (links ++ [to_])
    have hparams := params_of_bones hsets.1
    rw [hset]
    simp only [Option.bind_some]
    by_cases hroom : links.length + 1 ≤ g₁.params.maxLinks level
    · rw [if_pos hroom]
      refine ⟨g₁, rfl, hsets.grown hlayer fun hb => ⟨?_, hnodup hb⟩, hsets.sameBut⟩
      rw [List.length_append, List.length_singleton, ← hparams]
      exact hroom
    · rw [if_neg hroom]
      have hlt (n : Nat) (hn : n ∈ links ++ [to_]) : n < g₁.nodes.length := by
        rw [length_of_bones hsets.1]
        exact lt_of_linksAt (hlayer n hn)
      have hfrom₁ : (g₁.linksAt level from_).isSome := isSome_of_bones hsets.1.symm hfrom
      obtain ⟨near, hnear, hids⟩ := mapM_dist (lt_of_linksAt hfrom₁) hlt
      have hsorted : (sorted Near.cmp near).Perm near := sorted_perm near
      obtain ⟨kept, hselect, hlen, hsub⟩ := select_sub (g := g₁) (sorted Near.cmp near)
        (fun c hc => hlt c.id (hids ▸ List.mem_map_of_mem (hsorted.mem_iff.mp hc))) (g₁.params.maxLinks level)
      have hsub' : kept.Subperm (links ++ [to_]) := hids ▸ hsub.trans (hsorted.map Near.id).subperm
      have hnodup' (h : (links ++ [to_]).Nodup) : kept.Nodup := by
        obtain ⟨l, hperm, hl⟩ := hsub'
        exact hperm.nodup_iff.mp (h.sublist hl)
      obtain ⟨g₂, hset₂, hsets₂⟩ := setLinks_eq hfrom₁ kept
      rw [hnear]
      simp only [Option.bind_some]
      rw [hselect]
      simp only [Option.bind_some]
      refine ⟨g₂, hset₂, (hsets.again hsets₂).grown (fun n hn => hlayer n (hsub'.subset hn)) fun hb => ?_,
        (hsets.again hsets₂).sameBut⟩
      exact ⟨hparams ▸ hlen, hnodup' (hnodup hb).1, fun hmem => (hnodup hb).2 (hsub'.subset hmem)⟩

/-- The links of chosen nodes to a new one. -/
theorem links_grown {ns : List Nat} (hl : g.Layered) (hnew : (g.linksAt level id).isSome)
    (hns : ∀ n ∈ ns, (g.linksAt level n).isSome ∧ n ≠ id) :
    ∃ g', ns.foldlM (Hnsw.link · level id ·) g = some g' ∧ g.Grown g' ∧ g.SameBut g' level := by
  induction ns generalizing g with
  | nil => exact ⟨g, rfl, .refl g, fun _ _ _ => rfl⟩
  | cons n ns ih =>
      obtain ⟨hn, hne⟩ := hns n List.mem_cons_self
      obtain ⟨g₁, hlink, hgrown, hsame⟩ := link_grown hl hn hnew hne
      obtain ⟨g', hfold, hgrown', hsame'⟩ := ih (hgrown.layered hl) (hgrown.isSome hnew) fun m hm =>
        ⟨hgrown.isSome (hns m (List.mem_cons_of_mem _ hm)).1, (hns m (List.mem_cons_of_mem _ hm)).2⟩
      refine ⟨g', ?_, hgrown.trans hgrown', hsame.trans hsame'⟩
      rw [List.foldlM_cons, hlink]
      exact hfold

omit [Floats] in
theorem reached_ne {entry : List Near} {dist : Nat → Option F32} {allow : Nat → Option Bool} {ef n : Nat}
    (hid : id ∉ entry.map Near.id) (hfar : ∀ i ns, g.linksAt level i = some ns → id ∉ ns)
    (h : (g.space level ef dist allow).Reached entry n) : n ≠ id := by
  obtain ⟨r, hr, hway⟩ := h
  induction hway with
  | refl =>
      rintro rfl
      exact hid (List.mem_map_of_mem hr)
  | @tail m n _ hlead _ =>
      rintro rfl
      have hmem : n ∈ (g.linksAt level m).getD [] := hlead.1
      cases hm : g.linksAt level m with
      | none =>
          rw [hm] at hmem
          exact List.not_mem_nil hmem
      | some ns =>
          rw [hm] at hmem
          exact hfar m ns hm hmem

/-- A new node is linked on a layer, where no link led to it, to nodes found from those that the search began with. -/
theorem connect_grown {entry : List Near} (count : Nat) (hl : g.Layered) (hv : g.visits.Old)
    (hnew : (g.linksAt level id).isSome) (hroots : g.Roots level entry) (hid : id ∉ entry.map Near.id)
    (hfar : ∀ i ns, g.linksAt level i = some ns → id ∉ ns) :
    ∃ g' found count', connect id (g, entry, count) level = some (g', found, count') ∧ g.Grown g' ∧ g.SameBut g' level ∧
      g'.Roots level found ∧ id ∉ found.map Near.id := by
  have hready : g.Ready level (g.distNodes id) fun _ => some true :=
    ⟨hl, distNodes_isSome (lt_of_linksAt hnew), fun _ _ => rfl⟩
  obtain ⟨w, hdone, hlayer, hrun⟩ := searchLayerWith_walk g.params.efConstruction hready hroots count
  obtain ⟨v, hold, hsearch⟩ := hrun g.visits hv
  have hbest (n : Nat) (hn : n ∈ w.best.reverse.map Near.id) : (g.linksAt level n).isSome ∧ n ≠ id := by
    obtain ⟨a, ha, rfl⟩ := List.mem_map.mp hn
    obtain ⟨hseen, -, hview⟩ := hdone.sound.best_seen a (List.mem_reverse.mp ha)
    refine ⟨hlayer _ hseen, reached_ne hid hfar (hdone.sound.reached _ hseen ?_)⟩
    refine hview.imp (fun h => List.mem_map_of_mem h) fun h => ?_
    exact Option.isSome_of_mem h
  let g₁ : Hnsw := { g with visits := v }
  have hgrown₁ : g.Grown g₁ := ⟨rfl, fun h => h, fun h => h, fun _ => hold⟩
  obtain ⟨ns, hselect, hlen, hsub⟩ := select_sub (g := g₁) w.best.reverse
    (fun c hc => lt_of_linksAt (hbest c.id (List.mem_map_of_mem hc)).1) g₁.params.m
  have hns : ∀ n ∈ ns, (g₁.linksAt level n).isSome ∧ n ≠ id := fun n hn => hbest n (hsub.subset hn)
  obtain ⟨g₂, hlinks, hgrown₂, hsame₂⟩ := links_grown (g := g₁) hl hnew hns
  obtain ⟨g₃, hset, hsets⟩ := setLinks_eq (hgrown₂.isSome hnew) ns
  have hnodup : (w.best.reverse.map Near.id).Nodup := by
    rw [List.map_reverse, List.nodup_reverse]
    exact hdone.sound.best_nodup
  have hgrown₃ : g₂.Grown g₃ := by
    refine hsets.grown (fun n hn => hgrown₂.isSome (hns n hn).1) fun _ => ⟨?_, ?_, fun hmem => (hns id hmem).2 rfl⟩
    · have hparams : g₂.params = g.params := params_of_bones hgrown₂.bones
      rw [hparams]
      unfold Params.maxLinks
      split
      · exact hlen.trans (Nat.le_mul_of_pos_right _ Nat.two_pos)
      · exact hlen
    · obtain ⟨l, hperm, hl⟩ := hsub
      exact hperm.nodup_iff.mp (hnodup.sublist hl)
  have hall := (hgrown₁.trans hgrown₂).trans hgrown₃
  refine ⟨g₃, w.best.reverse, w.count, ?_, hall, ?_, ⟨hnodup, fun e he => ?_⟩, fun hmem => (hbest id hmem).2 rfl⟩
  · change (g.searchLayerWith entry g.params.efConstruction level (g.distNodes id) (fun _ => some true) count).bind _ = _
    rw [show g.searchLayerWith entry g.params.efConstruction level (g.distNodes id) (fun _ => some true) count = _ from hsearch,
      Option.bind_some]
    change (g₁.select w.best.reverse g₁.params.m).bind _ = _
    rw [hselect, Option.bind_some]
    change (ns.foldlM (Hnsw.link · level id ·) g₁).bind _ = _
    rw [hlinks, Option.bind_some]
    change (g₂.setLinks id level ns).bind _ = _
    rw [hset]
    rfl
  · exact fun l hl i => (hsame₂.trans hsets.sameBut) l hl i
  · exact hall.isSome (hbest e.id (List.mem_map_of_mem he)).1

/-- A new node is linked on its layers, from the top one down. -/
theorem connects_grown {k : Nat} (entry : List Near) (count : Nat) (hl : g.Layered) (hv : g.visits.Old)
    (hnew : ∀ l < k, (g.linksAt l id).isSome) (hroots : ∀ l < k, g.Roots l entry) (hid : id ∉ entry.map Near.id)
    (hfar : ∀ l < k, ∀ i ns, g.linksAt l i = some ns → id ∉ ns) :
    ∃ g' found count', (List.range k).reverse.foldlM (connect id) (g, entry, count) = some (g', found, count') ∧ g.Grown g' := by
  induction k generalizing g entry count with
  | zero => exact ⟨g, entry, count, rfl, .refl g⟩
  | succ k ih =>
      have hk := Nat.lt_succ_self k
      obtain ⟨g₁, found, count₁, hconnect, hgrown, hsame, hfound, hnot⟩ :=
        connect_grown count hl hv (hnew k hk) (hroots k hk) hid (hfar k hk)
      have hlower (l : Nat) (hlk : l < k) : g₁.Roots l found :=
        ⟨hfound.nodup, fun e he => layer_mono hlk.le (hfound.layer e he)⟩
      obtain ⟨g', found', count', hfold, hgrown'⟩ := ih found count₁ (hgrown.layered hl) (hgrown.visits hv)
        (fun l hlk => hgrown.isSome (hnew l (by omega))) hlower hnot fun l hlk i ns hns => by
          rw [hsame l hlk.ne] at hns
          exact hfar l (by omega) i ns hns
      refine ⟨g', found', count', ?_, hgrown.trans hgrown'⟩
      rw [List.range_succ, List.reverse_append, List.reverse_singleton, List.singleton_append, List.foldlM_cons, hconnect]
      exact hfold

/-- What a node costs; a tombstone is out of the key map. -/
def cost (p : Params) (n : Node) : Nat :=
  p.nodeBytes (keyLen n.key) n.vector.dims n.links.length - if n.deleted then keyLen n.key + 40 else 0

/-- A graph that can be used: what it counts is exact. -/
structure Usable (g : Hnsw) : Prop extends Linked g where
  count : g.deleted = g.nodes.countP fun n => n.deleted
  bytes : g.bytes = (g.nodes.map (cost g.params)).sum
  old : g.visits.Old
  size : g.nodes.length ≤ none32

/-- A graph that the program built. -/
structure Formed (g : Hnsw) : Prop extends Usable g where
  unique : ∀ {id} {n : Node}, g.nodes[id]? = some n → n.deleted = false → g.ids[n.key]? = some id
  levels : ∀ n ∈ g.nodes, 0 < n.links.length ∧ n.links.length ≤ g.maxLevel + 1
  top : g.maxLevel ≤ maxLevelBound
  bounded : g.Bounded
  norms : ∀ n ∈ g.nodes, n.norm = norm n.vector.vector

omit [Floats] in
theorem cost_bone (p : Params) (n : Node) : cost p n.bone = cost p n := by
  rw [cost, cost, Node.bone, List.length_replicate]

omit [Floats] in
theorem countP_of_bones (h : g.bones = g'.bones) :
    (g.nodes.countP fun n => n.deleted) = g'.nodes.countP fun n => n.deleted := by
  have hnodes : g.nodes.map Node.bone = g'.nodes.map Node.bone := congrArg (fun g : Hnsw => g.nodes) h
  have hcount := congrArg (List.countP fun n : Node => n.deleted) hnodes
  rwa [List.countP_map, List.countP_map] at hcount

omit [Floats] in
theorem costs_of_bones (h : g.bones = g'.bones) (p : Params) :
    (g.nodes.map (cost p)).sum = (g'.nodes.map (cost p)).sum := by
  have hnodes : g.nodes.map Node.bone = g'.nodes.map Node.bone := congrArg (fun g : Hnsw => g.nodes) h
  have hcosts (g : Hnsw) : g.nodes.map (cost p) = (g.nodes.map Node.bone).map (cost p) := by
    rw [List.map_map]
    exact List.map_congr_left fun n _ => (cost_bone p n).symm
  rw [hcosts g, hcosts g', hnodes]

omit [Floats] in
theorem tomb_counts {nodes : List Node} {n : Node} (p : Params) (hn : nodes[id]? = some n) (hlive : n.deleted = false) :
    ((nodes.set id { n with deleted := true }).countP fun n => n.deleted) = (nodes.countP fun n => n.deleted) + 1 ∧
      ((nodes.set id { n with deleted := true }).map (cost p)).sum + (keyLen n.key + 40) = (nodes.map (cost p)).sum := by
  induction nodes generalizing id with
  | nil => cases hn
  | cons m nodes ih =>
      cases id with
      | zero =>
          obtain rfl : m = n := Option.some.inj hn
          have hcost : cost p { m with deleted := true } + (keyLen m.key + 40) = cost p m := by
            simp only [cost, hlive, Bool.false_eq_true, if_false, if_true, Params.nodeBytes]
            omega
          simp only [List.set_cons_zero, List.countP_cons, List.map_cons, List.sum_cons, hlive, if_true, Bool.false_eq_true,
            if_false]
          refine ⟨trivial, ?_⟩
          omega
      | succ id =>
          have hnext : nodes[id]? = some n := hn
          obtain ⟨hcount, hsum⟩ := ih hnext
          simp only [List.set_cons_succ, List.countP_cons, List.map_cons, List.sum_cons, hcount]
          omega

omit [Floats] in
/-- A node keeps its links as a tombstone. -/
theorem linksAt_tomb {n : Node} (hn : g.nodes[id]? = some n) (l i : Nat) :
    Hnsw.linksAt { g with nodes := g.nodes.set id { n with deleted := true } } l i = g.linksAt l i := by
  rw [linksAt, linksAt, List.getElem?_set]
  split
  · next heq =>
    subst heq
    rw [hn, if_pos (List.getElem?_eq_some_iff.mp hn).1]
    rfl
  · rfl

/-- What removing a key leaves. -/
structure Removed (g g' : Hnsw) (key : String) : Prop where
  params : g'.params = g.params
  entry : g'.entry = g.entry
  maxLevel : g'.maxLevel = g.maxLevel
  length : g'.nodes.length = g.nodes.length
  linksAt : ∀ l i, g'.linksAt l i = g.linksAt l i
  ids : ∀ k, g'.ids[k]? = if k = key then none else g.ids[k]?
  nodes : ∀ {i n}, g'.nodes[i]? = some n → ∃ m, g.nodes[i]? = some m ∧ n = { m with deleted := n.deleted } ∧
    (n.deleted = false → m.deleted = false ∧ (m.key = key → g.ids[key]? ≠ some i))
  kept : ∀ {k i n}, k ≠ key → g.ids[k]? = some i → g.nodes[i]? = some n → g'.nodes[i]? = some n

theorem remove_usable (h : g.Usable) (key : String) : ∃ g', g.remove key = some g' ∧ g.Removed g' key ∧ g'.Usable := by
  cases hid : g.ids[key]? with
  | none =>
      refine ⟨g, ?_, ⟨rfl, rfl, rfl, rfl, fun _ _ => rfl, fun k => ?_, fun {i n} hn => ?_, fun _ _ hn => hn⟩, h⟩
      · rw [remove, hid]
      · split
        · next heq => rw [heq, hid]
        · rfl
      · exact ⟨n, hn, rfl, fun hlive => ⟨hlive, fun _ heq => by rw [hid] at heq; cases heq⟩⟩
  | some id =>
      obtain ⟨n, hn, hkey, hlive⟩ := h.ids hid
      obtain ⟨hcount, hsum⟩ := tomb_counts g.params hn hlive
      have hlt := (List.getElem?_eq_some_iff.mp hn).1
      let g' : Hnsw := { g with
        ids := g.ids.erase key
        bytes := g.bytes - (keyLen key + 40)
        nodes := g.nodes.set id { n with deleted := true }
        deleted := g.deleted + 1
        changes := g.changes + 1 }
      have hlinks (l i : Nat) : g'.linksAt l i = g.linksAt l i := linksAt_tomb hn l i
      have hids (k : String) : g'.ids[k]? = if k = key then none else g.ids[k]? := by
        change (g.ids.erase key)[k]? = _
        rw [ExtTreeMap.getElem?_erase]
        by_cases hk : k = key
        · rw [if_pos hk, if_pos]
          rw [hk]
          exact Std.ReflCmp.compare_self
        · rw [if_neg hk, if_neg]
          exact fun hcmp => hk (Std.LawfulEqCmp.eq_of_compare hcmp).symm
      have hother {k : String} {i : Nat} (hk : k ≠ key) (hi : g.ids[k]? = some i) : id ≠ i := by
        rintro rfl
        obtain ⟨m, hm, hmk, -⟩ := h.ids hi
        obtain rfl := Option.some.inj (hn.symm.trans hm)
        exact hk (hmk.symm.trans hkey)
      have hkept {k : String} {i : Nat} {m : Node} (hk : k ≠ key) (hi : g.ids[k]? = some i) (hm : g.nodes[i]? = some m) :
          g'.nodes[i]? = some m := by
        change (g.nodes.set id _)[i]? = _
        rw [List.getElem?_set, if_neg (hother hk hi), hm]
      refine ⟨g', ?_, ⟨rfl, rfl, rfl, List.length_set, hlinks, hids, fun {i m} hm => ?_, hkept⟩, ⟨fun hns x hx => ?_, fun hentry => ?_,
        fun hentry => ?_, fun {k i} hk => ?_⟩, ?_, ?_, h.old, ?_⟩
      · rw [remove, hid]
        simp only [Option.bind_eq_bind, hn, Option.bind_some]
        rfl
      · change (g.nodes.set id _)[i]? = _ at hm
        rw [List.getElem?_set] at hm
        split at hm
        · next heq =>
          subst heq
          obtain rfl := Option.some.inj hm
          exact ⟨n, hn, rfl, fun hlive => by cases hlive⟩
        · next hne =>
          refine ⟨m, hm, rfl, fun hlive => ⟨hlive, fun _ heq => hne ?_⟩⟩
          exact Option.some.inj (hid.symm.trans heq)
      · rw [hlinks] at hns ⊢
        exact h.links hns x hx
      · rw [hlinks]
        exact h.entry hentry
      · change g.nodes.set id _ = []
        rw [h.empty hentry]
        rfl
      · rw [hids] at hk
        split at hk
        · cases hk
        · next hne =>
          obtain ⟨m, hm, hmk, hmlive⟩ := h.ids hk
          exact ⟨m, hkept hne hk hm, hmk, hmlive⟩
      · change g.deleted + 1 = _
        rw [h.count]
        exact hcount.symm
      · change g.bytes - (keyLen key + 40) = ((g.nodes.set id _).map (cost g.params)).sum
        rw [h.bytes, ← hkey]
        omega
      · change (g.nodes.set id _).length ≤ none32
        rw [List.length_set]
        exact h.size

theorem Formed.removed {key : String} (h : g.Formed) (hr : g.Removed g' key) (hu : g'.Usable) : g'.Formed := by
  refine { hu with unique := fun {id n} hn hlive => ?_, levels := fun n hn => ?_, top := ?_, bounded := ?_, norms := fun n hn => ?_ }
  · obtain ⟨m, hm, hnm, hm'⟩ := hr.nodes hn
    obtain ⟨hmlive, hne⟩ := hm' hlive
    have hkey : n.key = m.key := by rw [hnm]
    have hid := h.unique hm hmlive
    rw [hr.ids, hkey, if_neg, hid]
    intro heq
    rw [heq] at hid
    exact hne heq hid
  · obtain ⟨i, hi⟩ := List.getElem?_of_mem hn
    obtain ⟨m, hm, hnm, -⟩ := hr.nodes hi
    have hlinks : n.links = m.links := by rw [hnm]
    rw [hlinks, hr.maxLevel]
    exact h.levels m (List.mem_of_getElem? hm)
  · rw [hr.maxLevel]
    exact h.top
  · intro l i ns hns
    rw [hr.linksAt] at hns
    rw [hr.params]
    exact h.bounded hns
  · obtain ⟨i, hi⟩ := List.getElem?_of_mem hn
    obtain ⟨m, hm, hnm, -⟩ := hr.nodes hi
    have hnorm : n.norm = m.norm := by rw [hnm]
    have hvector : n.vector = m.vector := by rw [hnm]
    rw [hnorm, hvector]
    exact h.norms m (List.mem_of_getElem? hm)

end

end Hnsw

end KivaDb.Vector
