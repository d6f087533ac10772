import KivaDb.Vector.Formed

namespace KivaDb.Vector

open Std (ExtTreeMap)
open Lib.LittleEndian

namespace Hnsw

variable {g g' : Hnsw} {level id : Nat}

/-- What is stored for a key. -/
def stored (g : Hnsw) (key : String) : Option Stored :=
  (g.ids[key]?).bind fun id => (g.nodes[id]?).map Node.vector

theorem stored_of_bones (h : g.bones = g'.bones) (key : String) : g.stored key = g'.stored key := by
  rw [stored, stored, (books_of_bones h).ids]
  congr 1
  funext id
  cases hn : g.nodes[id]? with
  | some n =>
      obtain ⟨n', hn', hbone⟩ := node_of_bones h hn
      rw [hn', Option.map_some, Option.map_some, (alike_of_bone hbone).2.1]
  | none =>
      cases hn' : g'.nodes[id]? with
      | none => rfl
      | some n' =>
          obtain ⟨n, hsome, -⟩ := node_of_bones h.symm hn'
          rw [hn] at hsome
          cases hsome

theorem getElem?_insert (m : ExtTreeMap String Nat compare) (key : String) (id : Nat) (k : String) :
    (m.insert key id)[k]? = if k = key then some id else m[k]? := by
  rw [ExtTreeMap.getElem?_insert]
  by_cases hk : k = key
  · rw [if_pos hk, if_pos]
    rw [hk]
    exact Std.ReflCmp.compare_self
  · rw [if_neg hk, if_neg]
    exact fun hcmp => hk (Std.LawfulEqCmp.eq_of_compare hcmp).symm

/-- The graph with one more node, that nothing leads to. -/
structure Pushed (g g' : Hnsw) (n : Node) : Prop where
  params : g'.params = g.params
  nodes : g'.nodes = g.nodes ++ [n]
  visits : g'.visits = g.visits
  ids : ∀ k, g'.ids[k]? = if k = n.key then some g.nodes.length else g.ids[k]?
  count : g'.deleted = g.deleted
  live : n.deleted = false
  links : ∀ ns ∈ n.links, ns = []

variable {n : Node}

theorem Pushed.linksAt (h : g.Pushed g' n) (l i : Nat) :
    g'.linksAt l i = if i = g.nodes.length then n.links[l]? else g.linksAt l i := by
  rw [Hnsw.linksAt, Hnsw.linksAt, h.nodes]
  split
  · next heq =>
    rw [heq, List.getElem?_append_right le_rfl, Nat.sub_self]
    rfl
  · next hne =>
    rw [List.getElem?_append]
    split
    · rfl
    · next hge =>
      have hbeyond : [n].length ≤ i - g.nodes.length := by
        rw [List.length_singleton]
        omega
      rw [List.getElem?_eq_none hbeyond, List.getElem?_eq_none (Nat.not_lt.mp hge)]

theorem Pushed.old (h : g.Pushed g' n) {l i : Nat} (hs : (g.linksAt l i).isSome) : (g'.linksAt l i).isSome := by
  rw [h.linksAt, if_neg (lt_of_linksAt hs).ne]
  exact hs

theorem Pushed.layered (h : g.Pushed g' n) (hl : g.Layered) : g'.Layered := by
  intro l i ns hns m hm
  rw [h.linksAt] at hns
  split at hns
  · rw [h.links ns (List.mem_of_getElem? hns)] at hm
    exact absurd hm List.not_mem_nil
  · exact h.old (hl hns m hm)

theorem Pushed.bounded (h : g.Pushed g' n) (hb : g.Bounded) : g'.Bounded := by
  intro l i ns hns
  rw [h.linksAt] at hns
  rw [h.params]
  split at hns
  · rw [h.links ns (List.mem_of_getElem? hns)]
    exact ⟨Nat.zero_le _, .nil, List.not_mem_nil⟩
  · exact hb hns

/-- No link leads to the new node. -/
theorem Pushed.far (h : g.Pushed g' n) (hl : g.Layered) : ∀ l i ns, g'.linksAt l i = some ns → g.nodes.length ∉ ns := by
  intro l i ns hns hmem
  rw [h.linksAt] at hns
  split at hns
  · rw [h.links ns (List.mem_of_getElem? hns)] at hmem
    exact List.not_mem_nil hmem
  · exact Nat.lt_irrefl _ (lt_of_linksAt (hl hns _ hmem))

section

variable {g₃ : Hnsw} {e top : Nat}

/-- The new node is linked, and the entry is on the top layer again. -/
theorem Pushed.usable (hu : g.Usable) (hp : g.Pushed g' n) (hbytes : g'.bytes = g.bytes + cost g.params n)
    (hsize : g.nodes.length < none32) (hgrown : g'.Grown g₃) (he : e ≠ none32) (hentry : (g'.linksAt top e).isSome) :
    Usable { g₃ with entry := e, maxLevel := top } := by
  have hids (k : String) : g₃.ids[k]? = g'.ids[k]? := by rw [(books_of_bones hgrown.bones).ids]
  have hparams : g₃.params = g.params := (params_of_bones hgrown.bones).trans hp.params
  have hlen : g₃.nodes.length = g.nodes.length + 1 := by
    rw [length_of_bones hgrown.bones, hp.nodes, List.length_append, List.length_singleton]
  refine ⟨⟨hgrown.layered (hp.layered hu.links), fun _ => hgrown.isSome hentry, fun heq => absurd heq he, fun {k i} hk => ?_⟩,
    ?_, ?_, hgrown.visits (hp.visits ▸ hu.old), ?_⟩
  · have hnode : ∃ m : Node, g'.nodes[i]? = some m ∧ m.key = k ∧ m.deleted = false := by
      have hk : g₃.ids[k]? = some i := hk
      rw [hids, hp.ids] at hk
      rw [hp.nodes]
      split at hk
      · next heq =>
        obtain rfl := Option.some.inj hk
        refine ⟨n, ?_, heq.symm, hp.live⟩
        rw [List.getElem?_append_right le_rfl, Nat.sub_self]
        rfl
      · obtain ⟨m, hm, hmk, hlive⟩ := hu.ids hk
        refine ⟨m, ?_, hmk, hlive⟩
        rw [List.getElem?_append_left (List.getElem?_eq_some_iff.mp hm).1]
        exact hm
    obtain ⟨m, hm, hmk, hlive⟩ := hnode
    obtain ⟨m', hm', hbone⟩ := node_of_bones hgrown.bones.symm hm
    obtain ⟨hkey, -, -, hdead⟩ := alike_of_bone hbone
    exact ⟨m', hm', hkey.trans hmk, hdead.trans hlive⟩
  · have hone : ([n].countP fun n => n.deleted) = 0 := by simp [hp.live]
    change g₃.deleted = g₃.nodes.countP _
    rw [(books_of_bones hgrown.bones).deleted, hp.count, hu.count, countP_of_bones hgrown.bones, hp.nodes,
      List.countP_append, hone, Nat.add_zero]
  · change g₃.bytes = (g₃.nodes.map (cost g₃.params)).sum
    rw [(books_of_bones hgrown.bones).bytes, hbytes, hu.bytes, hparams, costs_of_bones hgrown.bones, hp.nodes, List.map_append, List.sum_append]
    simp
  · change g₃.nodes.length ≤ none32
    omega

variable [Floats]

/-- The new node is linked on its layers, and the top layer has an entry. -/
theorem Pushed.attach (hu : g.Usable) (hp : g.Pushed g' n) (hentry : g'.entry = g.entry) (hmax : g'.maxLevel = g.maxLevel)
    (hsize : g.nodes.length < none32) (hlevels : n.links.length = level + 1) :
    ∃ g₃ e top, g'.attach g.nodes.length level = some { g₃ with entry := e, maxLevel := top } ∧ g'.Grown g₃ ∧ e ≠ none32 ∧
      (g'.linksAt top e).isSome ∧ level ≤ top ∧ (g.nodes ≠ [] → g.maxLevel ≤ top) ∧ top ≤ max level g.maxLevel := by
  have hnew : ∀ l ≤ level, (g'.linksAt l g.nodes.length).isSome := by
    intro l hl
    rw [hp.linksAt, if_pos rfl, List.getElem?_eq_getElem (by omega)]
    rfl
  rw [Hnsw.attach, hentry, hmax]
  by_cases hnone : g.entry = none32
  · rw [if_pos hnone]
    exact ⟨g', g.nodes.length, level, rfl, .refl g', hsize.ne, hnew level le_rfl, le_rfl,
      fun hne => absurd (hu.empty hnone) hne, Nat.le_max_left _ _⟩
  · rw [if_neg hnone]
    have hlayered : g'.Layered := hp.layered hu.links
    have htop : (g'.linksAt g.maxLevel g.entry).isSome := hp.old (hu.entry hnone)
    have hid := lt_of_linksAt (hnew 0 (Nat.zero_le _))
    have hdist := distNodes_isSome hid
    obtain ⟨d, hd⟩ := Option.isSome_iff_exists.mp (hdist _ (lt_of_linksAt htop))
    have htop' : g'.At g'.maxLevel (g'.distNodes g.nodes.length) ⟨d, g.entry⟩ := hmax.symm ▸ ⟨htop, hd⟩
    obtain ⟨cur, count, hdescend, hat, hled⟩ := descend_at hlayered hdist level htop' 0
    rw [hmax] at hat
    have hfar := hp.far hu.links
    have hne : cur.id ≠ g.nodes.length := by
      intro heq
      rcases hled with hcur | ⟨l, i, ns, hns, hmem⟩
      · exact (lt_of_linksAt (hu.entry hnone)).ne (hcur.symm.trans heq)
      · exact hfar l i ns hns (heq ▸ hmem)
    obtain ⟨g₃, found, count', hconnects, hgrown⟩ := connects_grown (k := Nat.min level g.maxLevel + 1) [cur]
      count hlayered (hp.visits ▸ hu.old) (fun l hl => hnew l ((Nat.le_of_lt_succ hl).trans (Nat.min_le_left _ _)))
      (fun l hl => (hat.mono (Nat.le_of_lt_succ hl)).roots)
      (fun hmem => hne (List.mem_singleton.mp hmem).symm) fun l _ i ns hns => hfar l i ns hns
    have hbooks := books_of_bones hgrown.bones
    simp only [hd, Option.bind_eq_bind, Option.bind_some, hdescend, hconnects, pure]
    rw [hbooks.maxLevel, hmax]
    by_cases hlt : g.maxLevel < level
    · rw [if_pos hlt]
      exact ⟨g₃, g.nodes.length, level, rfl, hgrown, hsize.ne, hnew level le_rfl, le_rfl, fun _ => hlt.le, Nat.le_max_left _ _⟩
    · rw [if_neg hlt]
      refine ⟨g₃, g.entry, g.maxLevel, ?_, hgrown, hnone, htop, Nat.le_of_not_lt hlt, fun _ => le_rfl, Nat.le_max_right _ _⟩
      rw [← hentry, ← hmax, ← hbooks.entry, ← hbooks.maxLevel]

theorem Pushed.formed (hf : g.Formed) (hp : g.Pushed g' n) (hnew : g.ids[n.key]? = none) (hgrown : g'.Grown g₃)
    (hu : Usable { g₃ with entry := e, maxLevel := top }) (hlevels : 0 < n.links.length ∧ n.links.length ≤ top + 1)
    (hmax : g.nodes ≠ [] → g.maxLevel ≤ top) (htop : top ≤ maxLevelBound) (hnorm : n.norm = norm n.vector.vector) :
    Formed { g₃ with entry := e, maxLevel := top } := by
  have hids (k : String) : g₃.ids[k]? = g'.ids[k]? := by rw [(books_of_bones hgrown.bones).ids]
  have hnode {i : Nat} {m : Node} (hm : g₃.nodes[i]? = some m) : ∃ m' : Node, m.bone = m'.bone ∧
      ((i = g.nodes.length ∧ m' = n) ∨ g.nodes[i]? = some m') := by
    obtain ⟨m', hm', hbone⟩ := node_of_bones hgrown.bones hm
    refine ⟨m', hbone.symm, ?_⟩
    rw [hp.nodes, List.getElem?_append] at hm'
    split at hm'
    · exact .inr hm'
    · next hge =>
      have hin := (List.getElem?_eq_some_iff.mp hm').1
      rw [List.length_singleton] at hin
      have hi : i = g.nodes.length := by omega
      rw [hi, Nat.sub_self] at hm'
      exact .inl ⟨hi, (Option.some.inj hm').symm⟩
  refine { hu with unique := fun {i m} hm hlive => ?_, levels := fun m hm => ?_, top := htop, bounded := ?_, norms := fun m hm => ?_ }
  · obtain ⟨m', hbone, hcase⟩ := hnode hm
    obtain ⟨hkey, -, -, hdead⟩ := alike_of_bone hbone
    change g₃.ids[m.key]? = some i
    rw [hids, hp.ids, hkey]
    rcases hcase with ⟨rfl, rfl⟩ | hm'
    · rw [if_pos rfl]
    · have hid := hf.unique hm' (hdead.symm.trans hlive)
      rw [if_neg, hid]
      intro heq
      rw [heq, hnew] at hid
      cases hid
  · obtain ⟨i, hi⟩ := List.getElem?_of_mem hm
    obtain ⟨m', hbone, hcase⟩ := hnode hi
    rw [levels_of_bone hbone]
    rcases hcase with ⟨-, rfl⟩ | hm'
    · exact hlevels
    · have hmem := List.mem_of_getElem? hm'
      obtain ⟨hpos, hle⟩ := hf.levels m' hmem
      have hmax := hmax (List.ne_nil_of_mem hmem)
      exact ⟨hpos, hle.trans (Nat.add_le_add_right hmax 1)⟩
  · exact hgrown.bounded (hp.bounded hf.bounded)
  · obtain ⟨i, hi⟩ := List.getElem?_of_mem hm
    obtain ⟨m', hbone, hcase⟩ := hnode hi
    obtain ⟨-, hvector, hnorm', -⟩ := alike_of_bone hbone
    rw [hvector, hnorm']
    rcases hcase with ⟨-, rfl⟩ | hm'
    · exact hnorm
    · exact hf.norms m' (List.mem_of_getElem? hm')

/-- What inserting a vector leaves. -/
structure Inserted (g g' : Hnsw) (key : String) (vector : List F32) : Prop where
  usable : g'.Usable
  formed : g.Formed → g'.Formed
  params : g'.params = g.params
  length : g'.nodes.length = g.nodes.length + 1
  stored : ∀ k, g'.stored k = if k = key then some (Stored.new vector g.params.quant) else g.stored k
  origin : ∀ n ∈ g'.nodes, (n.key = key ∧ n.vector = Stored.new vector g.params.quant) ∨
    ∃ m ∈ g.nodes, n.key = m.key ∧ n.vector = m.vector

theorem dims_new (v : List F32) (q : Quant) : (Stored.new v q).dims = v.length := by
  cases q with
  | none => rfl
  | sq8 =>
      change (List.map _ v).length = v.length
      exact List.length_map _

omit [Floats] in
theorem Pushed.stored (hp : g.Pushed g' n) (hids : ∀ {k : String} {i : Nat}, g.ids[k]? = some i → i < g.nodes.length) (k : String) :
    g'.stored k = if k = n.key then some n.vector else g.stored k := by
  rw [Hnsw.stored, hp.ids, hp.nodes]
  split
  · rw [Option.bind_some, List.getElem?_append_right le_rfl, Nat.sub_self]
    rfl
  · rw [Hnsw.stored]
    cases hi : g.ids[k]? with
    | none => rfl
    | some i =>
        rw [Option.bind_some, Option.bind_some, List.getElem?_append_left (hids hi)]

omit [Floats] in
theorem Usable.lt (hu : g.Usable) {k : String} {i : Nat} (h : g.ids[k]? = some i) : i < g.nodes.length := by
  obtain ⟨n, hn, -⟩ := hu.ids h
  exact (List.getElem?_eq_some_iff.mp hn).1

omit [Floats] in
theorem Removed.stored (hu : g.Usable) {key : String} (hr : g.Removed g' key) (k : String) :
    g'.stored k = if k = key then none else g.stored k := by
  rw [Hnsw.stored, hr.ids]
  split
  · rfl
  · next hne =>
    rw [Hnsw.stored]
    cases hi : g.ids[k]? with
    | none => rfl
    | some i =>
        obtain ⟨m, hm, -⟩ := hu.ids hi
        rw [Option.bind_some, Option.bind_some, hm, hr.kept hne hi hm]

/-- Inserting never fails: the vector is stored for its key, the others stay, and the graph is in order. -/
theorem insert_inserted (hu : g.Usable) (hsize : g.nodes.length < none32) (key : String) (vector : List F32) :
    ∃ g', g.insert key vector = some g' ∧ g.Inserted g' key vector := by
  obtain ⟨g₁, hremove, hr, hu₁⟩ := remove_usable hu key
  have hsize₁ : g₁.nodes.length < none32 := hr.length.symm ▸ hsize
  have hid : g₁.nodes.length % 2 ^ 32 = g₁.nodes.length := by
    refine Nat.mod_eq_of_lt ?_
    unfold none32 at hsize₁
    omega
  let level := g₁.randomLevel.1
  let st := Stored.new vector g₁.params.quant
  let n : Node := ⟨key, st, norm st.vector, List.replicate (level + 1) [], false⟩
  let g₂ : Hnsw := { g₁.randomLevel.2 with
    bytes := g₁.bytes + g₁.params.nodeBytes (keyLen key) vector.length (level + 1)
    nodes := g₁.nodes ++ [n]
    ids := g₁.ids.insert key g₁.nodes.length
    changes := g₁.changes + 1 }
  have hp : g₁.Pushed g₂ n :=
    ⟨rfl, rfl, rfl, getElem?_insert _ _ _, rfl, rfl, fun ns hns => (List.mem_replicate.mp hns).2⟩
  have hlevels : n.links.length = level + 1 := List.length_replicate
  have hcost : g₂.bytes = g₁.bytes + cost g₁.params n := by
    change _ = g₁.bytes + (g₁.params.nodeBytes (keyLen key) st.dims n.links.length - 0)
    rw [dims_new, hlevels]
    rfl
  have hnew : g₁.ids[key]? = none := by rw [hr.ids, if_pos rfl]
  obtain ⟨g₃, e, top, hattach, hgrown, he, hentry, hlevel, hmax, htop⟩ := hp.attach hu₁ rfl rfl hsize₁ hlevels
  have husable := hp.usable hu₁ hcost hsize₁ hgrown he hentry
  refine ⟨_, ?_, husable, fun hf => ?_, ?_, ?_, fun k => ?_, fun m hm => ?_⟩
  · rw [insert, hremove, Option.bind_eq_bind, Option.bind_some]
    refine Eq.trans ?_ hattach
    change Hnsw.attach _ (g₁.nodes.length % 2 ^ 32) level = _
    simp only [hid]
    rfl
  · have hf₁ := hf.removed hr hu₁
    refine hp.formed hf₁ hnew hgrown husable ⟨by omega, by omega⟩ hmax ?_ rfl
    exact htop.trans (Nat.max_le.mpr ⟨Nat.min_le_right _ _, hf₁.top⟩)
  · exact (params_of_bones hgrown.bones).trans hr.params
  · exact (length_of_bones hgrown.bones).trans (by rw [hp.nodes, List.length_append, List.length_singleton, hr.length])
  · have hstored : Hnsw.stored { g₃ with entry := e, maxLevel := top } k = g₂.stored k := stored_of_bones hgrown.bones k
    rw [hstored, hp.stored hu₁.lt, hr.stored hu, ← hr.params]
    split <;> rfl
  · obtain ⟨i, hi⟩ := List.getElem?_of_mem hm
    obtain ⟨m', hm', hbone⟩ := node_of_bones hgrown.bones hi
    obtain ⟨hkey, hvector, -⟩ := alike_of_bone hbone.symm
    rw [hkey, hvector, ← hr.params]
    rcases List.mem_append.mp (List.mem_of_getElem? hm') with hold | hlast
    · obtain ⟨j, hj⟩ := List.getElem?_of_mem hold
      obtain ⟨m₀, hm₀, heq, -⟩ := hr.nodes hj
      refine .inr ⟨m₀, List.mem_of_getElem? hm₀, ?_⟩
      rw [heq]
      exact ⟨rfl, rfl⟩
    · rw [List.mem_singleton.mp hlast]
      exact .inl ⟨rfl, rfl⟩

/-- A graph without nodes. -/
def blank (params : Params) (rng : UInt64) (changes : Nat) : Hnsw := { new params with rng := rng, changes := changes }

omit [Floats] in
theorem ids_blank (params : Params) (rng : UInt64) (changes : Nat) (k : String) : (blank params rng changes).ids[k]? = none :=
  ExtTreeMap.getElem?_empty

theorem blank_formed (params : Params) (rng : UInt64) (changes : Nat) : (blank params rng changes).Formed := by
  have hlinks (l i : Nat) : (blank params rng changes).linksAt l i = none := rfl
  have hnode (n : Node) : n ∉ (blank params rng changes).nodes := List.not_mem_nil
  refine {
    links := ?links
    entry := fun h => absurd rfl h
    empty := fun _ => rfl
    ids := ?ids
    count := rfl
    bytes := rfl
    old := ?old
    size := Nat.zero_le _
    unique := ?unique
    levels := fun n hn => absurd hn (hnode n)
    top := Nat.zero_le _
    bounded := ?bounded
    norms := fun n hn => absurd hn (hnode n) }
  case old => exact fun m hm => absurd hm List.not_mem_nil
  case links =>
    intro l i ns hns
    rw [hlinks] at hns
    cases hns
  case ids =>
    intro k i hk
    rw [ids_blank] at hk
    cases hk
  case unique =>
    intro i n hn
    exact absurd (List.mem_of_getElem? hn) (hnode n)
  case bounded =>
    intro l i ns hns
    rw [hlinks] at hns
    cases hns

omit [Floats] in
theorem blank_stored (params : Params) (rng : UInt64) (changes : Nat) (key : String) :
    (blank params rng changes).stored key = none := by
  rw [stored, ids_blank]
  rfl

/-- The key given another vector, or none. -/
def put (m : String → Option Stored) (key : String) (v : Option Stored) (k : String) : Option Stored :=
  if k = key then v else m k

/-- The vector of a node, stored again. -/
def again (q : Quant) (s : Stored) : Stored := Stored.new s.vector q

theorem foldl_put {q : Quant} {l : List Node} {m : String → Option Stored} {k : String} {s : Stored}
    (hall : ∀ n ∈ l, n.key = k → n.vector = s) :
    l.foldl (fun m n => put m n.key (some (again q n.vector))) m k = if k ∈ l.map Node.key then some (again q s) else m k := by
  induction l generalizing m with
  | nil => exact (if_neg List.not_mem_nil).symm
  | cons n l ih =>
      rw [List.foldl_cons, ih fun n' hn' => hall n' (List.mem_cons_of_mem _ hn'), List.map_cons]
      by_cases hin : k ∈ l.map Node.key
      · rw [if_pos hin, if_pos (List.mem_cons_of_mem _ hin)]
      · rw [if_neg hin, put]
        by_cases hk : k = n.key
        · rw [if_pos hk, if_pos (List.mem_cons.mpr (.inl hk)), hall n List.mem_cons_self hk.symm]
        · rw [if_neg hk, if_neg fun h => (List.mem_cons.mp h).elim hk hin]

theorem inserts_formed {l : List Node} (hf : g.Formed) (hsize : g.nodes.length + l.length ≤ none32) :
    ∃ g', l.foldlM (fun (h : Hnsw) n => h.insert n.key n.vector.vector) g = some g' ∧ g'.Formed ∧ g'.params = g.params ∧
      g'.nodes.length = g.nodes.length + l.length ∧
      (∀ k, g'.stored k = l.foldl (fun m n => put m n.key (some (again g.params.quant n.vector))) g.stored k) ∧
      ∀ n ∈ g'.nodes, (∃ m ∈ l, n.key = m.key ∧ n.vector = again g.params.quant m.vector) ∨
        ∃ m ∈ g.nodes, n.key = m.key ∧ n.vector = m.vector := by
  induction l generalizing g with
  | nil => exact ⟨g, rfl, hf, rfl, rfl, fun _ => rfl, fun n hn => .inr ⟨n, hn, rfl, rfl⟩⟩
  | cons n l ih =>
      rw [List.length_cons] at hsize
      obtain ⟨g₁, hinsert, h₁⟩ := insert_inserted hf.toUsable (by omega) n.key n.vector.vector
      obtain ⟨g', hfold, hf', hparams, hlen, hstored, horigin⟩ := ih (h₁.formed hf) (by rw [h₁.length]; omega)
      refine ⟨g', ?_, hf', hparams.trans h₁.params, ?_, fun k => ?_, fun m hm => ?_⟩
      · rw [List.foldlM_cons, hinsert]
        exact hfold
      · rw [hlen, h₁.length, List.length_cons]
        omega
      · have hput : g₁.stored = put g.stored n.key (some (again g.params.quant n.vector)) := funext h₁.stored
        rw [hstored, hput, h₁.params]
        rfl
      · rw [h₁.params] at horigin
        rcases horigin m hm with ⟨m', hm', hsame⟩ | ⟨m', hm', hkey, hvector⟩
        · exact .inl ⟨m', List.mem_cons_of_mem _ hm', hsame⟩
        · rw [hkey, hvector]
          rcases h₁.origin m' hm' with hnew | hold
          · exact .inl ⟨n, List.mem_cons_self, hnew⟩
          · exact .inr hold

theorem Formed.stored_live (hf : g.Formed) {n : Node} (hn : n ∈ g.live) : g.stored n.key = some n.vector := by
  obtain ⟨hmem, hlive⟩ := List.mem_filter.mp hn
  obtain ⟨i, hi⟩ := List.getElem?_of_mem hmem
  rw [stored, hf.unique hi (by simpa using hlive), Option.bind_some, hi]
  rfl

theorem Formed.live_of_stored (hf : g.Formed) {k : String} {s : Stored} (hs : g.stored k = some s) :
    ∃ n ∈ g.live, n.key = k ∧ n.vector = s := by
  rw [stored] at hs
  obtain ⟨id, hid, hs⟩ := Option.bind_eq_some_iff.mp hs
  obtain ⟨n, hn, hkey, hlive⟩ := hf.ids hid
  rw [hn] at hs
  exact ⟨n, List.mem_filter.mpr ⟨List.mem_of_getElem? hn, by rw [hlive]; rfl⟩, hkey, Option.some.inj hs⟩

/-- What holds of every node's key and vector. -/
def Holds (P : String → Stored → Prop) (g : Hnsw) : Prop := ∀ n ∈ g.nodes, P n.key n.vector

theorem Inserted.holds {P : String → Stored → Prop} {key : String} {vector : List F32} (h : g.Inserted g' key vector)
    (hg : g.Holds P) (hnew : P key (Stored.new vector g.params.quant)) : g'.Holds P := by
  intro n hn
  rcases h.origin n hn with ⟨hkey, hvector⟩ | ⟨m, hm, hkey, hvector⟩
  · rw [hkey, hvector]
    exact hnew
  · rw [hkey, hvector]
    exact hg m hm

omit [Floats] in
theorem Removed.holds {P : String → Stored → Prop} {key : String} (h : g.Removed g' key) (hg : g.Holds P) : g'.Holds P := by
  intro n hn
  obtain ⟨i, hi⟩ := List.getElem?_of_mem hn
  obtain ⟨m, hm, heq, -⟩ := h.nodes hi
  rw [heq]
  exact hg m (List.mem_of_getElem? hm)

/-- Building the graph again keeps the keys, and their vectors as they would be stored. -/
theorem rebuild_formed (hu : g.Usable) : ∃ g', g.rebuild = some g' ∧ g'.Formed ∧ g'.params = g.params ∧
    g'.nodes.length ≤ g.nodes.length ∧ (g.Formed → ∀ k, g'.stored k = (g.stored k).map (again g.params.quant)) ∧
    ∀ n ∈ g'.nodes, ∃ m ∈ g.nodes, n.key = m.key ∧ n.vector = again g.params.quant m.vector := by
  have hlive : g.live.length ≤ g.nodes.length := List.length_filter_le _ _
  have hzero : (blank g.params g.rng 0).nodes.length = 0 := rfl
  obtain ⟨g', hfold, hf', hparams, hlen, hstored, horigin⟩ := inserts_formed (l := g.live) (blank_formed g.params g.rng 0)
    (by rw [hzero, Nat.zero_add]; exact hlive.trans hu.size)
  refine ⟨{ g' with changes := Nat.max g'.changes 1 }, ?_, { hf' with }, hparams, ?_, fun hf k => ?_, fun n hn => ?_⟩
  · rw [rebuild]
    change (g.live.foldlM (fun (h : Hnsw) n => h.insert n.key n.vector.vector) (blank g.params g.rng 0)).bind _ = _
    rw [hfold]
    rfl
  · change g'.nodes.length ≤ _
    omega
  · change g'.stored k = _
    rw [hstored k]
    cases hs : g.stored k with
    | some s =>
        obtain ⟨n, hin, hkey, -⟩ := hf.live_of_stored hs
        rw [foldl_put (s := s), if_pos (List.mem_map.mpr ⟨n, hin, hkey⟩)]
        · rfl
        · rintro m hm rfl
          exact Option.some.inj ((hf.stored_live hm).symm.trans hs)
    | none =>
        have hnot : k ∉ g.live.map Node.key := by
          intro hmem
          obtain ⟨m, hm, rfl⟩ := List.mem_map.mp hmem
          rw [hf.stored_live hm] at hs
          cases hs
        rw [foldl_put (s := .full []), if_neg hnot, blank_stored]
        · rfl
        · exact fun m hm hmk => absurd (List.mem_map.mpr ⟨m, hm, hmk⟩) hnot
  · rcases horigin n hn with ⟨m, hm, hsame⟩ | ⟨m, hm, -⟩
    · exact ⟨m, List.mem_of_mem_filter hm, hsame⟩
    · exact absurd hm List.not_mem_nil

theorem Formed.keys_nodup (hf : g.Formed) : (g.live.map Node.key).Nodup := by
  rw [List.Nodup, List.pairwise_map, live, List.pairwise_filter, List.pairwise_iff_getElem]
  intro i j hi hj hlt halive halive' hkey
  have hid := hf.unique (List.getElem?_eq_getElem hi) (by simpa using halive)
  have hid' := hf.unique (List.getElem?_eq_getElem hj) (by simpa using halive')
  rw [hkey, hid'] at hid
  exact hlt.ne (Option.some.inj hid).symm

/-- The key map has the live nodes. -/
theorem Formed.len (hf : g.Formed) : g.len = g.live.length := by
  have hperm : g.ids.keys.Perm (g.live.map Node.key) := by
    refine (List.perm_ext_iff_of_nodup ExtTreeMap.nodup_keys hf.keys_nodup).mpr fun k => ?_
    rw [ExtTreeMap.mem_keys, ← ExtTreeMap.isSome_getElem?_iff_mem]
    constructor
    · intro hk
      obtain ⟨id, hid⟩ := Option.isSome_iff_exists.mp hk
      obtain ⟨n, hn, hkey, hlive⟩ := hf.ids hid
      exact List.mem_map.mpr ⟨n, List.mem_filter.mpr ⟨List.mem_of_getElem? hn, by rw [hlive]; rfl⟩, hkey⟩
    · intro hk
      obtain ⟨n, hn, rfl⟩ := List.mem_map.mp hk
      obtain ⟨hmem, hlive⟩ := List.mem_filter.mp hn
      obtain ⟨i, hi⟩ := List.getElem?_of_mem hmem
      rw [hf.unique hi (by simpa using hlive)]
      rfl
  have hlen := hperm.length_eq
  rw [ExtTreeMap.length_keys, List.length_map] at hlen
  exact hlen

/-- A node is live or a tombstone. -/
theorem Formed.tombs (hf : g.Formed) : g.len + g.deleted = g.nodes.length := by
  have hsplit := List.length_eq_countP_add_countP (l := g.nodes) fun n : Node => n.deleted
  rw [hf.len, hf.count, live, ← List.countP_eq_length_filter, Nat.add_comm, hsplit]
  congr 1
  exact List.countP_congr fun n _ => by cases n.deleted <;> simp

/-- What is done to a graph. -/
inductive Op
  | insert (key : String) (vector : List F32)
  | remove (key : String)
  | rebuild
  | clear
  | search (query : List F32) (k ef : Nat) (accept : String → Bool) (hidden : Option String)
  | filter (query : List F32) (k ef : Nat) (accept : String → Bool)

namespace Op

/-- How many nodes it may add. -/
def nodes : Op → Nat
  | .insert _ _ => 1
  | _ => 0

/-- What it does to the vectors stored. -/
def onMap (q : Quant) (m : String → Option Stored) : Op → String → Option Stored
  | .insert key vector => put m key (some (Stored.new vector q))
  | .remove key => put m key none
  | .rebuild => fun k => (m k).map (again q)
  | .clear => fun _ => none
  | _ => m

end Op

def apply (g : Hnsw) : Op → Option Hnsw
  | .insert key vector => g.insert key vector
  | .remove key => g.remove key
  | .rebuild => g.rebuild
  | .clear => some g.clear
  | .search query k ef accept hidden => (g.searchHiding query k ef accept hidden).map fun r => { g with visits := r.2 }
  | .filter query k ef accept => (g.searchFiltered query k ef accept).map fun r => { g with visits := r.2 }

/-- What one step keeps. -/
structure Kept (g g' : Hnsw) (op : Op) : Prop where
  usable : g'.Usable
  formed : g.Formed → g'.Formed
  params : g'.params = g.params
  length : g'.nodes.length ≤ g.nodes.length + op.nodes
  stored : g.Formed → g'.stored = op.onMap g.params.quant g.stored
  holds : ∀ P : String → Stored → Prop, (∀ k s, P k s → P k (again g.params.quant s)) →
    (∀ k v, op = .insert k v → P k (Stored.new v g.params.quant)) → g.Holds P → g'.Holds P

theorem visited_kept (hu : g.Usable) {v : Visits} (hv : v.Old) {op : Op} (hop : op.onMap g.params.quant g.stored = g.stored) :
    g.Kept { g with visits := v } op :=
  ⟨{ hu with old := hv }, fun hf => { hf with old := hv }, rfl, Nat.le_add_right _ _, fun _ => hop.symm, fun _ _ _ hP => hP⟩

theorem apply_kept (hu : g.Usable) (op : Op) (hsize : g.nodes.length + op.nodes ≤ none32) :
    ∃ g', g.apply op = some g' ∧ g.Kept g' op := by
  cases op with
  | insert key vector =>
      obtain ⟨g', hinsert, h⟩ := insert_inserted hu (Nat.lt_of_succ_le hsize) key vector
      exact ⟨g', hinsert, h.usable, h.formed, h.params, h.length.le, fun _ => funext h.stored,
        fun P _ hnew hP => h.holds hP (hnew key vector rfl)⟩
  | remove key =>
      obtain ⟨g', hremove, hr, hu'⟩ := remove_usable hu key
      exact ⟨g', hremove, hu', fun hf => hf.removed hr hu', hr.params, hr.length.le, fun _ => funext (hr.stored hu),
        fun P _ _ hP => hr.holds hP⟩
  | rebuild =>
      obtain ⟨g', hrebuild, hf, hparams, hlen, hstored, horigin⟩ := rebuild_formed hu
      refine ⟨g', hrebuild, hf.toUsable, fun _ => hf, hparams, hlen, fun h => funext (hstored h), fun P hagain _ hP n hn => ?_⟩
      obtain ⟨m, hm, hkey, hvector⟩ := horigin n hn
      rw [hkey, hvector]
      exact hagain m.key m.vector (hP m hm)
  | clear =>
      have hf := blank_formed g.params g.rng 1
      exact ⟨g.clear, rfl, hf.toUsable, fun _ => hf, rfl, Nat.zero_le _, fun _ => funext (blank_stored g.params g.rng 1),
        fun P _ _ _ n hn => absurd hn List.not_mem_nil⟩
  | search query k ef accept hidden =>
      obtain ⟨near, compared, -, hrun, -⟩ := searchHiding_answers hu.toLinked query k ef accept hidden
      obtain ⟨v', hold, hsearch⟩ := hrun g.visits hu.old
      exact ⟨_, congrArg (Option.map _) hsearch, visited_kept hu hold rfl⟩
  | filter query k ef accept =>
      obtain ⟨near, compared, -, hrun, -⟩ := searchFiltered_answers hu.toLinked query k ef accept
      obtain ⟨v', hold, hsearch⟩ := hrun g.visits hu.old
      exact ⟨_, congrArg (Option.map _) hsearch, visited_kept hu hold rfl⟩

/-- Whatever is done to a usable graph, nothing fails. -/
theorem run_kept (hu : g.Usable) (ops : List Op) (hsize : g.nodes.length + (ops.map Op.nodes).sum ≤ none32) :
    ∃ g', ops.foldlM apply g = some g' ∧ g'.Usable ∧ g'.params = g.params ∧
      (g.Formed → g'.Formed ∧ g'.stored = ops.foldl (Op.onMap g.params.quant) g.stored) := by
  induction ops generalizing g with
  | nil => exact ⟨g, rfl, hu, rfl, fun hf => ⟨hf, rfl⟩⟩
  | cons op ops ih =>
      rw [List.map_cons, List.sum_cons] at hsize
      obtain ⟨g₁, happly, h₁⟩ := apply_kept hu op (by omega)
      have hlen := h₁.length
      obtain ⟨g', hfold, hu', hparams, hformed⟩ := ih h₁.usable (by omega)
      refine ⟨g', ?_, hu', hparams.trans h₁.params, fun hf => ?_⟩
      · rw [List.foldlM_cons, happly]
        exact hfold
      · obtain ⟨hf', hstored⟩ := hformed (h₁.formed hf)
        rw [h₁.stored hf, h₁.params] at hstored
        exact ⟨hf', hstored⟩

/-- What is read of a key. -/
theorem Formed.get_eq (hf : g.Formed) (key : String) :
    g.get key = some ((g.stored key).map fun s => (s.vector, norm s.vector)) := by
  rw [get, stored]
  cases hid : g.ids[key]? with
  | none => rfl
  | some id =>
      obtain ⟨n, hn, -⟩ := hf.ids hid
      have hnorm := hf.norms n (List.mem_of_getElem? hn)
      dsimp only
      rw [Option.bind_some, hn, Option.bind_eq_bind, Option.bind_some, Option.map_some, Option.map_some, hnorm]
      rfl

/-- A graph that the program built is in order whatever was done to it, and holds the vectors that were stored and not
removed, each under its key. -/
theorem run_refines_map (params : Params) (ops : List Op) (hsize : (ops.map Op.nodes).sum ≤ none32) :
    ∃ g, ops.foldlM apply (new params) = some g ∧ g.Formed ∧ g.len + g.deleted = g.nodes.length ∧
      ∀ key, g.get key = some ((ops.foldl (Op.onMap params.quant) (fun _ => none) key).map fun s => (s.vector, norm s.vector)) := by
  have hnew : (new params).Formed := blank_formed params (new params).rng 0
  have hzero : (new params).nodes.length = 0 := rfl
  obtain ⟨g, hrun, -, -, hformed⟩ := run_kept hnew.toUsable ops (by rwa [hzero, Nat.zero_add])
  obtain ⟨hf, hstored⟩ := hformed hnew
  refine ⟨g, hrun, hf, hf.tombs, fun key => ?_⟩
  have hblank : (new params).stored = fun _ => none := funext (blank_stored params (new params).rng 0)
  rw [hf.get_eq, hstored, hblank]
  rfl

theorem Answers.keys {dist : Nat → Option F32} {accept : String → Bool} {hidden : Option Nat} {k : Nat} {near : List Near}
    (hf : g.Formed) (h : g.Answers dist accept hidden k near) :
    (g.keysOf near).Nodup ∧ ∀ key ∈ g.keysOf near, (g.stored key).isSome = true ∧ accept key = true := by
  have hnode {a : Near} (ha : a ∈ near) : g.nodeAt a.id ∈ g.live ∧ g.ids[(g.nodeAt a.id).key]? = some a.id ∧
      accept (g.nodeAt a.id).key = true := by
    obtain ⟨hid, hwanted, -⟩ := h.wanted a ha
    rw [Hnsw.wanted, Bool.and_eq_true] at hwanted
    have hat := getElem?_nodeAt hid
    have hlive : (g.nodeAt a.id).deleted = false := by simpa using hwanted.1
    exact ⟨List.mem_filter.mpr ⟨List.mem_of_getElem? hat, hwanted.1⟩, hf.unique hat hlive, hwanted.2⟩
  constructor
  · refine List.pairwise_map.mpr (h.ascending.order.imp_of_mem fun {a b} ha hb hlt hkey => ?_)
    have hid := (hnode ha).2.1
    rw [hkey, (hnode hb).2.1] at hid
    have hdist := h.ascending.dist a ha
    rw [← Option.some.inj hid, h.ascending.dist b hb] at hdist
    have heq : a = b := by
      cases a
      cases b
      simp_all
    have hself : Near.cmp b b = .eq := Std.ReflCmp.compare_self
    rw [heq, hself] at hlt
    cases hlt
  · intro key hkey
    obtain ⟨a, ha, rfl⟩ := List.mem_map.mp hkey
    obtain ⟨hlive, -, haccept⟩ := hnode ha
    exact ⟨by rw [hf.stored_live hlive]; rfl, haccept⟩

/-- Whatever was done before it, a search answers distinct keys that are stored and accepted, the closest first and at most
`k`; and with fewer than `k`, or when nothing had to be left out, it answers all that can be reached. -/
theorem run_search_answers (params : Params) (ops : List Op) (hsize : (ops.map Op.nodes).sum ≤ none32) (query : List F32)
    (k ef : Nat) (accept : String → Bool) (hidden : Option String) :
    ∃ g near compared visits, ops.foldlM apply (new params) = some g ∧
      g.searchHiding query k ef accept hidden = some (⟨g.keysOf near, compared⟩, visits) ∧
      g.Answers (g.away (.new query) (g.hiddenNode hidden)) accept (g.hiddenNode hidden) k near ∧
      ((g.keysOf near).Nodup ∧ ∀ key ∈ g.keysOf near, (g.stored key).isSome = true ∧ accept key = true) ∧
      (0 < k → g.entry ≠ none32 → (near.length < k ∨ g.nodes.length ≤ ef) →
        ∃ start, g.StartsAt (g.away (.new query) (g.hiddenNode hidden)) start ∧
          g.Nearest (g.away (.new query) (g.hiddenNode hidden)) accept (g.hiddenNode hidden) start k near) := by
  have hnew : (new params).Formed := blank_formed params (new params).rng 0
  have hzero : (new params).nodes.length = 0 := rfl
  obtain ⟨g, hrun, hu, -, hformed⟩ := run_kept hnew.toUsable ops (by rwa [hzero, Nat.zero_add])
  obtain ⟨near, compared, hanswers, hsearch, hnearest⟩ := searchHiding_answers hu.toLinked query k ef accept hidden
  obtain ⟨visits, -, hsearch⟩ := hsearch g.visits hu.old
  exact ⟨g, near, compared, visits, hrun, hsearch, hanswers, hanswers.keys (hformed hnew).1, hnearest⟩

/-- The same of a search that asks `accept` while it explores. -/
theorem run_filter_answers (params : Params) (ops : List Op) (hsize : (ops.map Op.nodes).sum ≤ none32) (query : List F32)
    (k ef : Nat) (accept : String → Bool) :
    ∃ g near compared visits, ops.foldlM apply (new params) = some g ∧
      g.searchFiltered query k ef accept = some (⟨g.keysOf near, compared⟩, visits) ∧
      g.Answers (g.distTo (.new query)) accept none k near ∧
      ((g.keysOf near).Nodup ∧ ∀ key ∈ g.keysOf near, (g.stored key).isSome = true ∧ accept key = true) ∧
      (0 < k → g.entry ≠ none32 → (near.length < k ∨ g.nodes.length ≤ ef) →
        ∃ start, g.StartsAt (g.distTo (.new query)) start ∧ g.Nearest (g.distTo (.new query)) accept none start k near) := by
  have hnew : (new params).Formed := blank_formed params (new params).rng 0
  have hzero : (new params).nodes.length = 0 := rfl
  obtain ⟨g, hrun, hu, -, hformed⟩ := run_kept hnew.toUsable ops (by rwa [hzero, Nat.zero_add])
  obtain ⟨near, compared, hanswers, hsearch, hnearest⟩ := searchFiltered_answers hu.toLinked query k ef accept
  obtain ⟨visits, -, hsearch⟩ := hsearch g.visits hu.old
  exact ⟨g, near, compared, visits, hrun, hsearch, hanswers, hanswers.keys (hformed hnew).1, hnearest⟩

end

section Samples

/-- Arithmetic on zeros and a single one. -/
local instance unitFloats : Floats where
  add x y := if x = F32.zero then y else x
  sub x y := if x = y then F32.zero else x
  mul x y := if x = F32.one then y else F32.zero
  div x _ := x
  min x y := if y.lt x then y else x
  max x y := if x.lt y then y else x
  sum l := (l.find? fun x => x ≠ F32.zero).getD F32.zero
  sqrt x := x
  ofNat n := if n = 0 then F32.zero else F32.one
  narrow f := if f.mantissa = 0 then F32.zero else F32.one
  code x := if x = F32.zero then 0 else 1
  layer _ _ := 0

def plain : Params := ⟨.l2, 16, 200, .none⟩

def twoVectors : List Op := [.insert "a" [F32.one], .insert "b" [F32.zero], .insert "a" [F32.zero], .rebuild]

theorem run_refines_map_two : ∃ g, twoVectors.foldlM apply (new plain) = some g ∧ g.Formed ∧ g.len + g.deleted = g.nodes.length ∧
    g.get "a" = some (some ([F32.zero], norm [F32.zero])) := by
  obtain ⟨g, hrun, hf, hlen, hget⟩ := run_refines_map plain twoVectors (by decide)
  exact ⟨g, hrun, hf, hlen, hget "a"⟩

theorem run_search_answers_two : ∃ g near compared visits, twoVectors.foldlM apply (new plain) = some g ∧
    g.searchHiding [F32.one] 2 10 (fun key => key ≠ "b") none = some (⟨g.keysOf near, compared⟩, visits) ∧
    (g.keysOf near).Nodup ∧ "b" ∉ g.keysOf near := by
  obtain ⟨g, near, compared, visits, hrun, hsearch, -, hkeys, -⟩ :=
    run_search_answers plain twoVectors (by decide) [F32.one] 2 10 (fun key => key ≠ "b") none
  exact ⟨g, near, compared, visits, hrun, hsearch, hkeys.1, fun hb => absurd (hkeys.2 "b" hb).2 (by decide)⟩

theorem run_filter_answers_two : ∃ g near compared visits, twoVectors.foldlM apply (new plain) = some g ∧
    g.searchFiltered [F32.one] 2 10 (fun key => key ≠ "b") = some (⟨g.keysOf near, compared⟩, visits) ∧
    (g.keysOf near).Nodup ∧ "b" ∉ g.keysOf near := by
  obtain ⟨g, near, compared, visits, hrun, hsearch, -, hkeys, -⟩ :=
    run_filter_answers plain twoVectors (by decide) [F32.one] 2 10 fun key => key ≠ "b"
  exact ⟨g, near, compared, visits, hrun, hsearch, hkeys.1, fun hb => absurd (hkeys.2 "b" hb).2 (by decide)⟩

end Samples

end Hnsw

end KivaDb.Vector
