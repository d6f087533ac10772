import KivaDb.Doc
import KivaDb.Float
import KivaDb.Glob
import KivaDb.Lib.Tally
import KivaDb.Vector.Saved

namespace KivaDb.Vector

open Std (ExtTreeMap)
open Glob Lib.Tally

/-- The longest vector accepted. -/
def maxDims : Nat := 16384

def F32.isFinite (x : F32) : Bool := x.magnitude < 0x7f800000

def asF64 : Number → F64
  | .posInt n => F64.ofInt n.toNat
  | .negInt i => F64.ofInt i.toInt
  | .float f => f

inductive Kind
  | exact
  | hnsw (p : Params)
  deriving DecidableEq

/-- How the vectors of an index are stored. -/
def Kind.quant : Kind → Quant
  | .exact => .none
  | .hnsw p => p.quant

inductive Store
  | exact (m : ExtTreeMap String (List F32 × F32) compare)
  | graph (g : Hnsw)

/-- What one vector costs in an exact store. -/
def exactCost (key : String) (dims : Nat) : Nat := Hnsw.keyLen key + dims * 4 + 64

/-- The vectors of one field of the documents matching a pattern. -/
structure VecIndex where
  pattern : String
  field : String
  path : List Seg
  /-- Fixed by the first vector indexed. -/
  dims : Option Nat
  store : Store
  /-- Documents whose vector had another length. -/
  rejected : Nat
  /-- Documents whose field holds something else than numbers. -/
  notVectors : Nat
  exactBytes : Nat

section

variable [Floats]

/-- A finite number of a vector. -/
def component : Json → Option F32
  | .number n => if (Floats.narrow (asF64 n)).isFinite then some (Floats.narrow (asF64 n)) else none
  | _ => none

/-- A non-empty array of finite numbers. -/
def fromJson : Json → Option (List F32)
  | .array a => if a.isEmpty || maxDims < a.length then none else a.mapM component
  | _ => none

def extract (doc : Json) (path : List Seg) : Option (List F32) := (JsonPath.get doc path).bind fromJson

/-- A query vector with what the comparisons need. -/
structure Query where
  vector : List F32
  metric : Metric
  norm : F32

namespace Query

def new (vector : List F32) (metric : Metric) : Query := ⟨vector, metric, Vector.norm vector⟩

def score (q : Query) (v : List F32) (vNorm : F32) : F32 :=
  match q.metric with
  | .dot => dot q.vector v
  | .cosine =>
      let d := Floats.mul q.norm vNorm
      if d.same F32.zero then F32.zero else Floats.div (dot q.vector v) d
  | .l2 => Floats.sqrt (l2Squared q.vector v)

omit [Floats] in
/-- The best first; a key decides between equal scores. -/
def order (q : Query) (a b : String × F32) : Ordering :=
  (if q.metric = .l2 then a.2.totalCmp b.2 else (a.2.totalCmp b.2).swap).then (compare a.1 b.1)

omit [Floats] in
/-- What `select_nth_unstable_by` does. -/
def Splits (q : Query) (nth : List (String × F32) → Nat → List (String × F32)) : Prop :=
  ∀ l k, k < l.length → (nth l k).Perm l ∧ ∀ a ∈ (nth l k).take k, ∀ b ∈ (nth l k).drop k, (q.order a b).isLE

end Query

namespace VecIndex

def withKind (pattern field : String) (path : List Seg) (kind : Kind) : VecIndex where
  pattern
  field
  path
  dims := none
  store := match kind with
    | .exact => .exact ∅
    | .hnsw p => .graph (.new p)
  rejected := 0
  notVectors := 0
  exactBytes := 0

def kind (i : VecIndex) : Kind :=
  match i.store with
  | .exact _ => .exact
  | .graph g => .hnsw g.params

def graph (i : VecIndex) : Option Hnsw :=
  match i.store with
  | .graph g => some g
  | .exact _ => none

/-- A graph read back from disk, with what it knew of the vectors. -/
def restore (i : VecIndex) (g : Hnsw) (dims : Option Nat) (rejected : Nat) : VecIndex :=
  { i with store := .graph g, dims, rejected }

def len (i : VecIndex) : Nat :=
  match i.store with
  | .exact m => m.size
  | .graph g => g.len

def memoryBytes (i : VecIndex) : Nat :=
  match i.store with
  | .exact _ => i.exactBytes
  | .graph g => g.bytes

/-- Memory that writing `doc` under `key` would add to the index. -/
def growth (i : VecIndex) (key : String) (doc : Option Json) : Option Nat :=
  if !globMatch i.pattern key then some 0
  else
    match doc.bind fun d => extract d i.path with
    | none => some 0
    | some v =>
        if i.dims.any fun d => d ≠ v.length then some 0
        else
          match i.store with
          | .exact m => some (if m.contains key then 0 else exactCost key v.length)
          | .graph g => do
              let same ← g.same key v
              return if same then 0 else g.params.nodeBytes (Hnsw.keyLen key) v.length 1

/-- Every vector indexed, with its key and its norm. -/
def entries (i : VecIndex) : List (String × List F32 × F32) :=
  match i.store with
  | .exact m => m.toList
  | .graph g => g.iter

def keys (i : VecIndex) : List String := i.entries.map Prod.fst

/-- The vector indexed for a key, with its norm. -/
def get (i : VecIndex) (key : String) : Option (Option (List F32 × F32)) :=
  match i.store with
  | .exact m => some m[key]?
  | .graph g => g.get key

def clear (i : VecIndex) : VecIndex := { i with
  store := match i.store with
    | .exact _ => .exact ∅
    | .graph g => .graph g.clear
  dims := none
  rejected := 0
  notVectors := 0
  exactBytes := 0 }

def remove (i : VecIndex) (key : String) : Option VecIndex :=
  match i.store with
  | .exact m =>
      match m[key]? with
      | some (v, _) =>
          if exactCost key v.length ≤ i.exactBytes then
            some { i with store := .exact (m.erase key), exactBytes := i.exactBytes - exactCost key v.length }
          else none
      | none => some i
  | .graph g => do
      let g ← g.remove key
      return { i with store := .graph g }

/-- Puts a vector of the right length in the store. -/
def put (i : VecIndex) (key : String) (v : List F32) : Option VecIndex :=
  match i.store with
  | .exact m =>
      let bytes := i.exactBytes + exactCost key v.length
      let store := Store.exact (m.insert key (v, norm v))
      match m[key]? with
      | some (old, _) =>
          if exactCost key old.length ≤ bytes then some { i with store, exactBytes := bytes - exactCost key old.length }
          else none
      | none => some { i with store, exactBytes := bytes }
  | .graph g => do
      -- a document changed elsewhere than in its vector keeps its node
      let same ← g.same key v
      if same then return i
      let g ← g.insert key v
      return { i with store := .graph g }

def update (i : VecIndex) (key : String) (doc : Option Json) : Option VecIndex :=
  if !globMatch i.pattern key then some i
  else
    let field := doc.bind fun d => JsonPath.get d i.path
    match field.bind fromJson with
    | none => { i with notVectors := if field.isSome then i.notVectors + 1 else i.notVectors }.remove key
    | some v =>
        if i.dims.any fun d => d ≠ v.length then do
          let i ← i.remove key
          return { i with rejected := i.rejected + 1 }
        else { i with dims := some v.length }.put key v

/-- The graph built again without its tombstones. -/
def rebuild (i : VecIndex) : Option VecIndex :=
  match i.store with
  | .exact _ => some i
  | .graph g => do
      let g ← g.rebuild
      return { i with store := .graph g }

/-- What is done to an index. -/
inductive Op
  | update (key : String) (doc : Option Json)
  | remove (key : String)
  | clear
  | rebuild
  | search (query : List F32) (k ef : Nat) (accept : String → Bool) (hidden : Option String)
  | filter (query : List F32) (k ef : Nat) (accept : String → Bool)

/-- A search leaves its marks on the graph. -/
def onGraph (i : VecIndex) (op : Hnsw.Op) : Option VecIndex :=
  match i.store with
  | .exact _ => some i
  | .graph g => do
      let g ← g.apply op
      return { i with store := .graph g }

def step (i : VecIndex) : Op → Option VecIndex
  | .update key doc => i.update key doc
  | .remove key => i.remove key
  | .clear => some i.clear
  | .rebuild => i.rebuild
  | .search query k ef accept hidden => i.onGraph (.search query k ef accept hidden)
  | .filter query k ef accept => i.onGraph (.filter query k ef accept)

end VecIndex

/-- What an index stands for: the last vector of each key, unless it was of another length or was taken away. -/
structure View where
  dims : Option Nat
  rejected : Nat
  notVectors : Nat
  vectors : String → Option (List F32)

namespace View

def empty : View := ⟨none, 0, 0, fun _ => none⟩

def update (pattern : String) (path : List Seg) (w : View) (key : String) (doc : Option Json) : View :=
  if !globMatch pattern key then w
  else
    let field := doc.bind fun d => JsonPath.get d path
    match field.bind fromJson with
    | none => { w with
        notVectors := if field.isSome then w.notVectors + 1 else w.notVectors
        vectors := Function.update w.vectors key none }
    | some v =>
        if w.dims.any fun d => d ≠ v.length then
          { w with rejected := w.rejected + 1, vectors := Function.update w.vectors key none }
        else { w with dims := some v.length, vectors := Function.update w.vectors key (some v) }

def step (pattern : String) (path : List Seg) (w : View) : VecIndex.Op → View
  | .update key doc => w.update pattern path key doc
  | .remove key => { w with vectors := Function.update w.vectors key none }
  | .clear => empty
  | _ => w

end View

/-- Vectors that are equal number by number, where `0` equals `-0`. -/
def Alike (v w : List F32) : Prop := List.Forall₂ (fun x y => x.same y = true) v w

/-- A vector that a document can hold. -/
structure Proper (v : List F32) : Prop where
  finite : ∀ x ∈ v, x.isFinite = true
  length : 0 < v.length ∧ v.length ≤ maxDims

omit [Floats] in
theorem mapM_some {α β : Type} {f : α → Option β} {l : List α} {r : List β} (h : l.mapM f = some r) :
    List.Forall₂ (fun a b => f a = some b) l r := by
  induction l generalizing r with
  | nil =>
      cases h
      exact .nil
  | cons a l ih =>
      rw [List.mapM_cons] at h
      obtain ⟨b, hb, h⟩ := Option.bind_eq_some_iff.mp h
      obtain ⟨bs, hbs, h⟩ := Option.bind_eq_some_iff.mp h
      cases h
      exact .cons hb (ih hbs)

theorem component_finite {j : Json} {x : F32} (h : component j = some x) : x.isFinite = true := by
  unfold component at h
  split at h
  · split at h
    · next hfinite => rwa [← Option.some.inj h]
    · cases h
  · cases h

theorem fromJson_proper {j : Json} {v : List F32} (h : fromJson j = some v) : Proper v := by
  unfold fromJson at h
  split at h
  · next a =>
    split at h
    · cases h
    · next hlen =>
      rw [Bool.or_eq_true, not_or, decide_eq_true_eq, Bool.not_eq_true, List.isEmpty_eq_false_iff] at hlen
      have hall := mapM_some h
      refine ⟨fun x hx => ?_, ?_⟩
      · obtain ⟨i, hi, rfl⟩ := List.getElem_of_mem hx
        exact component_finite (hall.get (hall.length_eq.symm ▸ hi) hi)
      · rw [← hall.length_eq]
        exact ⟨List.length_pos_of_ne_nil hlen.1, Nat.le_of_not_lt hlen.2⟩
  · cases h

omit [Floats] in
theorem same_self {x : F32} (h : x.isFinite = true) : x.same x = true := by
  have hlt : x.magnitude < 0x7f800000 := of_decide_eq_true h
  have hnan : x.isNan = false := decide_eq_false (by omega)
  rw [F32.same, hnan, decide_eq_true rfl]
  rfl

omit [Floats] in
theorem Proper.alike {v : List F32} (h : Proper v) : Alike v v :=
  List.forall₂_same.mpr fun x hx => same_self (h.finite x hx)

omit [Floats] in
theorem alike_iff {v w : List F32} :
    (v.length == w.length && (List.zipWith F32.same v w).all fun same => same) = true ↔ Alike v w := by
  induction v generalizing w with
  | nil =>
      cases w with
      | nil => exact ⟨fun _ => .nil, fun _ => rfl⟩
      | cons y w =>
          refine iff_of_false ?_ ?_
          · rintro ⟨⟩
          · rintro ⟨⟩
  | cons x v ih =>
      cases w with
      | nil =>
          refine iff_of_false ?_ ?_
          · rintro ⟨⟩
          · rintro ⟨⟩
      | cons y w =>
          rw [Alike, List.forall₂_cons, ← Alike, ← ih, List.length_cons, List.length_cons, List.zipWith_cons_cons, List.all_cons]
          simp only [Bool.and_eq_true, beq_iff_eq, Nat.add_right_cancel_iff]
          tauto

theorem length_vector (s : Stored) : s.vector.length = s.dims := by
  cases s with
  | full v => rfl
  | sq8 s => exact List.length_map _

/-- Stored for `v`: the same numbers, unless they are quantized. -/
def Shown : Quant → Stored → List F32 → Prop
  | .none, s, v => ∃ w, s = .full w ∧ Alike w v
  | .sq8, _, _ => True

namespace Hnsw

variable {g : Hnsw}

theorem same_answers (hl : g.Linked) (key : String) (v : List F32) : ∃ b, g.same key v = some b := by
  rw [same]
  cases hid : g.ids[key]? with
  | none => exact ⟨false, rfl⟩
  | some id =>
      obtain ⟨n, hn, -⟩ := hl.ids hid
      dsimp only
      rw [hn, Option.bind_eq_bind, Option.bind_some]
      cases n.vector with
      | full w => exact ⟨_, rfl⟩
      | sq8 s => exact ⟨_, rfl⟩

theorem shown_of_same {key : String} {v : List F32} {q : Quant} (hl : g.Linked) (hof : g.Holds fun _ s => Stored.Of q s)
    (h : g.same key v = some true) : ∃ s, g.stored key = some s ∧ Shown q s v := by
  rw [same] at h
  cases hid : g.ids[key]? with
  | none =>
      rw [hid] at h
      cases h
  | some id =>
      obtain ⟨n, hn, -⟩ := hl.ids hid
      have hstored : g.stored key = some n.vector := by
        rw [stored, hid, Option.bind_some, hn]
        rfl
      refine ⟨n.vector, hstored, ?_⟩
      cases q with
      | none =>
          obtain ⟨w, hw⟩ := hof n (List.mem_of_getElem? hn)
          rw [hid] at h
          dsimp only at h
          rw [hn, Option.bind_eq_bind, Option.bind_some, hw] at h
          exact ⟨w, hw, alike_iff.mp (Option.some.inj h)⟩
      | sq8 => exact trivial

end Hnsw

namespace Query

omit [Floats] in
/-- The place of a score, the best first. -/
def place (q : Query) (r : String × F32) : Int := if q.metric = .l2 then r.2.totalPlace else -r.2.totalPlace

omit [Floats] in
theorem compare_neg (x y : Int) : compare (-x) (-y) = compare y x := by
  cases h : compare y x with
  | lt =>
      rw [compare_lt_iff_lt] at h ⊢
      omega
  | eq =>
      rw [compare_eq_iff_eq] at h ⊢
      omega
  | gt =>
      rw [compare_gt_iff_gt] at h ⊢
      omega

omit [Floats] in
theorem order_eq (q : Query) : q.order = compareLex (compareOn q.place) (compareOn Prod.fst) := by
  funext a b
  change _ = (compare (q.place a) (q.place b)).then (compare a.1 b.1)
  rw [order, place, place, F32.totalCmp]
  split
  · rfl
  · rw [← Std.OrientedCmp.eq_swap, compare_neg]

omit [Floats] in
instance transOrder (q : Query) : Std.TransCmp q.order := by
  rw [q.order_eq]
  infer_instance

omit [Floats] in
theorem keys_of_eq (q : Query) {a b : String × F32} (h : q.order a b = .eq) : a.1 = b.1 := by
  rw [q.order_eq] at h
  change (compare (q.place a) (q.place b)).then (compare a.1 b.1) = .eq at h
  exact Std.LawfulEqCmp.eq_of_compare (Ordering.then_eq_eq.mp h).2

omit [Floats] in
theorem apart (q : Query) {l : List (String × F32)} (hl : (l.map Prod.fst).Nodup) : Lib.Heap.Apart q.order l := by
  intro a ha b hb heq
  exact List.inj_on_of_nodup_map hl ha hb (q.keys_of_eq heq)

end Query

namespace VecIndex

variable {i i' : VecIndex} {w : View} {key : String} {v : List F32}

/-- An exact store that holds `vectors`. -/
structure Exact (i : VecIndex) (m : ExtTreeMap String (List F32 × F32) compare) (vectors : String → Option (List F32)) : Prop where
  store : i.store = .exact m
  entries : ∀ k, m[k]? = (vectors k).map fun v => (v, norm v)
  bytes : i.exactBytes = tally (fun k p => exactCost k p.1.length) m

/-- A graph that holds `vectors`. -/
structure Linking (i : VecIndex) (g : Hnsw) (vectors : String → Option (List F32)) : Prop where
  store : i.store = .graph g
  formed : g.Formed
  holds : g.Holds fun _ s => Stored.Of g.params.quant s ∧ i.dims = some s.dims
  shown : ∀ k, Option.Rel (Shown g.params.quant) (g.stored k) (vectors k)

/-- The index stands for `w`. -/
structure Shows (i : VecIndex) (w : View) : Prop where
  dims : i.dims = w.dims
  rejected : i.rejected = w.rejected
  notVectors : i.notVectors = w.notVectors
  bound : ∀ d, i.dims = some d → 0 < d ∧ d ≤ maxDims
  proper : ∀ k v, w.vectors k = some v → Proper v ∧ i.dims = some v.length
  store : (∃ m, i.Exact m w.vectors) ∨ ∃ g, i.Linking g w.vectors

/-- How many nodes the graph has, tombstones included. -/
def nodes (i : VecIndex) : Nat :=
  match i.store with
  | .exact _ => 0
  | .graph g => g.nodes.length

/-- What an operation never changes; and how many nodes it may add. -/
structure Same (i i' : VecIndex) (more : Nat) : Prop where
  pattern : i'.pattern = i.pattern
  field : i'.field = i.field
  path : i'.path = i.path
  kind : i'.kind = i.kind
  nodes : i'.nodes ≤ i.nodes + more

/-- The store holds other vectors; the rest is as it was. -/
structure Stores (i i' : VecIndex) (vectors : String → Option (List F32)) (more : Nat) : Prop extends Same i i' more where
  dims : i'.dims = i.dims
  rejected : i'.rejected = i.rejected
  notVectors : i'.notVectors = i.notVectors
  store : (∃ m, i'.Exact m vectors) ∨ ∃ g, i'.Linking g vectors

variable {m : ExtTreeMap String (List F32 × F32) compare} {g : Hnsw} {vectors : String → Option (List F32)}

theorem Exact.same (h : i.Exact m vectors) (m' : ExtTreeMap String (List F32 × F32) compare) (bytes : Nat) :
    i.Same { i with store := .exact m', exactBytes := bytes } 0 := by
  refine ⟨rfl, rfl, rfl, ?_, ?_⟩
  · rw [kind, kind, h.store]
  · rw [nodes, nodes, h.store]

theorem Exact.remove (h : i.Exact m vectors) (key : String) :
    ∃ i', i.remove key = some i' ∧ i.Stores i' (Function.update vectors key none) 0 := by
  have hentries (k : String) : (m.erase key)[k]? = (Function.update vectors key none k).map fun v => (v, norm v) := by
    rw [get_erase]
    by_cases hk : key = k
    · subst hk
      rw [if_pos rfl, Function.update_self]
      rfl
    · rw [if_neg hk, Function.update_of_ne (Ne.symm hk), h.entries]
  rw [VecIndex.remove, h.store]
  dsimp only
  cases hm : m[key]? with
  | some p =>
      have htally := tally_erase (fun k (p : List F32 × F32) => exactCost k p.1.length) hm
      rw [← h.bytes] at htally
      dsimp only
      rw [if_pos (by omega)]
      refine ⟨_, rfl, h.same _ _, rfl, rfl, rfl, .inl ⟨m.erase key, rfl, hentries, ?_⟩⟩
      dsimp only
      omega
  | none =>
      refine ⟨i, rfl, ⟨rfl, rfl, rfl, rfl, le_rfl⟩, rfl, rfl, rfl, .inl ⟨m, h.store, fun k => ?_, h.bytes⟩⟩
      rw [← hentries, erase_absent hm]

theorem Exact.put (h : i.Exact m vectors) (key : String) (v : List F32) :
    ∃ i', i.put key v = some i' ∧ i.Stores i' (Function.update vectors key (some v)) 0 := by
  have hentries (k : String) : (m.insert key (v, norm v))[k]? = (Function.update vectors key (some v) k).map fun v => (v, norm v) := by
    rw [get_insert]
    by_cases hk : key = k
    · subst hk
      rw [if_pos rfl, Function.update_self]
      rfl
    · rw [if_neg hk, Function.update_of_ne (Ne.symm hk), h.entries]
  have htally := tally_insert (fun k (p : List F32 × F32) => exactCost k p.1.length) m key (v, norm v)
  rw [VecIndex.put, h.store]
  dsimp only
  cases hm : m[key]? with
  | some p =>
      have hold := tally_erase (fun k (p : List F32 × F32) => exactCost k p.1.length) hm
      rw [← h.bytes] at hold
      dsimp only
      rw [if_pos (by omega)]
      refine ⟨_, rfl, h.same _ _, rfl, rfl, rfl, .inl ⟨_, rfl, hentries, ?_⟩⟩
      dsimp only at htally ⊢
      omega
  | none =>
      rw [erase_absent hm, ← h.bytes] at htally
      refine ⟨_, rfl, h.same _ _, rfl, rfl, rfl, .inl ⟨_, rfl, hentries, ?_⟩⟩
      dsimp only at htally ⊢
      omega

theorem again_fits {q : Quant} {d : Option Nat} {s : Stored} (h : Stored.Of q s ∧ d = some s.dims) :
    Stored.Of q (Hnsw.again q s) ∧ d = some (Hnsw.again q s).dims := by
  refine ⟨Stored.of_new _ q, ?_⟩
  rw [Hnsw.again, Hnsw.dims_new, length_vector]
  exact h.2

theorem shown_new {q : Quant} {v : List F32} (hv : Proper v) : Shown q (Stored.new v q) v := by
  cases q with
  | none => exact ⟨v, rfl, hv.alike⟩
  | sq8 => exact trivial

theorem shown_again {q : Quant} {s : Stored} {v : List F32} (h : Shown q s v) : Shown q (Hnsw.again q s) v := by
  cases q with
  | none =>
      obtain ⟨w, rfl, halike⟩ := h
      exact ⟨w, rfl, halike⟩
  | sq8 => exact trivial

theorem rel_again {q : Quant} {s : Option Stored} {v : Option (List F32)} (h : Option.Rel (Shown q) s v) :
    Option.Rel (Shown q) (s.map (Hnsw.again q)) v := by
  cases h with
  | some hshown => exact .some (shown_again hshown)
  | none => exact .none

/-- What is done to the graph. -/
theorem Linking.apply (h : i.Linking g vectors) (op : Hnsw.Op) (hsize : g.nodes.length + op.nodes ≤ none32)
    (hdims : ∀ k v, op = .insert k v → i.dims = some v.length) {vectors' : String → Option (List F32)}
    (hshown : ∀ k, Option.Rel (Shown g.params.quant) (op.onMap g.params.quant g.stored k) (vectors' k)) :
    ∃ g', g.apply op = some g' ∧ i.Stores { i with store := .graph g' } vectors' op.nodes := by
  obtain ⟨g', happly, hkept⟩ := Hnsw.apply_kept h.formed.toUsable op hsize
  refine ⟨g', happly, ⟨rfl, rfl, rfl, ?_, ?_⟩, rfl, rfl, rfl, .inr ⟨g', rfl, hkept.formed h.formed, ?_, fun k => ?_⟩⟩
  · rw [kind, kind, h.store]
    exact congrArg Kind.hnsw hkept.params
  · rw [nodes, nodes, h.store]
    exact hkept.length
  · rw [hkept.params]
    refine hkept.holds _ (fun k s => again_fits) (fun k v hop => ⟨Stored.of_new v _, ?_⟩) h.holds
    rw [Hnsw.dims_new]
    exact hdims k v hop
  · rw [hkept.params, hkept.stored h.formed]
    exact hshown k

omit [Floats] in
theorem rel_update {r : Stored → List F32 → Prop} {stored : String → Option Stored} (h : ∀ k, Option.Rel r (stored k) (vectors k))
    (key : String) {s : Option Stored} {v : Option (List F32)} (hs : Option.Rel r s v) (k : String) :
    Option.Rel r (Hnsw.put stored key s k) (Function.update vectors key v k) := by
  rw [Hnsw.put, Function.update_apply]
  split
  · exact hs
  · exact h k

theorem Linking.remove (h : i.Linking g vectors) (key : String) :
    ∃ i', i.remove key = some i' ∧ i.Stores i' (Function.update vectors key none) 0 := by
  obtain ⟨g', happly, hstores⟩ := h.apply (.remove key) h.formed.size (fun k v hop => by cases hop)
    fun k => rel_update h.shown key .none k
  refine ⟨_, ?_, hstores⟩
  rw [VecIndex.remove, h.store]
  change (g.remove key).bind _ = _
  rw [show g.remove key = some g' from happly]
  rfl

theorem Linking.put (h : i.Linking g vectors) (key : String) {v : List F32} (hsize : g.nodes.length < none32) (hv : Proper v)
    (hdims : i.dims = some v.length) :
    ∃ i', i.put key v = some i' ∧ i.Stores i' (Function.update vectors key (some v)) 1 := by
  obtain ⟨b, hb⟩ := Hnsw.same_answers h.formed.toLinked key v
  rw [VecIndex.put, h.store]
  dsimp only
  rw [hb, Option.bind_eq_bind, Option.bind_some]
  cases b with
  | true =>
      refine ⟨i, rfl, ⟨rfl, rfl, rfl, rfl, Nat.le_succ _⟩, rfl, rfl, rfl, .inr ⟨g, h.store, h.formed, h.holds, fun k => ?_⟩⟩
      obtain ⟨s, hs, hshown⟩ := Hnsw.shown_of_same h.formed.toLinked (fun n hn => (h.holds n hn).1) hb
      rw [Function.update_apply]
      split
      · next hk =>
        rw [hk, hs]
        exact .some hshown
      · exact h.shown k
  | false =>
      obtain ⟨g', happly, hstores⟩ := h.apply (.insert key v) hsize
        (fun k v' hop => by
          cases hop
          exact hdims)
        fun k => rel_update h.shown key (.some (shown_new hv)) k
      refine ⟨_, ?_, hstores⟩
      rw [if_neg Bool.false_ne_true]
      change (g.insert key v).bind _ = _
      rw [show g.insert key v = some g' from happly]
      rfl

omit [Floats] in
theorem Same.mono {more more' : Nat} (h : i.Same i' more) (hle : more ≤ more') : i.Same i' more' :=
  { h with nodes := h.nodes.trans (Nat.add_le_add_left hle _) }

theorem Shows.remove (h : i.Shows w) (key : String) :
    ∃ i', i.remove key = some i' ∧ i.Same i' 0 ∧ i'.Shows { w with vectors := Function.update w.vectors key none } := by
  have hstores : ∃ i', i.remove key = some i' ∧ i.Stores i' (Function.update w.vectors key none) 0 := by
    rcases h.store with ⟨m, hm⟩ | ⟨g, hg⟩
    · exact hm.remove key
    · exact hg.remove key
  obtain ⟨i', hremove, hs⟩ := hstores
  refine ⟨i', hremove, hs.toSame, hs.dims.trans h.dims, hs.rejected.trans h.rejected, hs.notVectors.trans h.notVectors, ?_,
    fun k v hk => ?_, hs.store⟩
  · rw [hs.dims]
    exact h.bound
  · dsimp only at hk
    rw [Function.update_apply] at hk
    rw [hs.dims]
    split at hk
    · cases hk
    · exact h.proper k v hk

theorem Shows.put (h : i.Shows w) (hsize : i.nodes < none32) (key : String) {v : List F32} (hv : Proper v)
    (hfit : (i.dims.any fun d => d ≠ v.length) = false) :
    ∃ i', { i with dims := some v.length }.put key v = some i' ∧ i.Same i' 1 ∧
      i'.Shows { w with dims := some v.length, vectors := Function.update w.vectors key (some v) } := by
  have hdims {d : Nat} (hd : i.dims = some d) : some v.length = some d := by
    rw [hd, Option.any_some, decide_eq_false_iff_not, not_not] at hfit
    rw [hfit]
  have hstores : ∃ i', VecIndex.put { i with dims := some v.length } key v = some i' ∧
      Stores { i with dims := some v.length } i' (Function.update w.vectors key (some v)) 1 := by
    rcases h.store with ⟨m, hm⟩ | ⟨g, hg⟩
    · have hm' : Exact { i with dims := some v.length } m w.vectors := ⟨hm.store, hm.entries, hm.bytes⟩
      obtain ⟨i', hput, hs⟩ := hm'.put key v
      exact ⟨i', hput, { hs with toSame := hs.toSame.mono (Nat.zero_le 1) }⟩
    · have hnodes : i.nodes = g.nodes.length := by rw [nodes, hg.store]
      have hg' : Linking { i with dims := some v.length } g w.vectors :=
        ⟨hg.store, hg.formed, fun n hn => ⟨(hg.holds n hn).1, hdims (hg.holds n hn).2⟩, hg.shown⟩
      exact hg'.put key (hnodes ▸ hsize) hv rfl
  obtain ⟨i', hput, hs⟩ := hstores
  refine ⟨i', hput, ⟨hs.pattern, hs.field, hs.path, hs.kind, hs.nodes⟩, hs.dims, hs.rejected.trans h.rejected,
    hs.notVectors.trans h.notVectors, fun d hd => ?_, fun k u hk => ?_, hs.store⟩
  · rw [hs.dims] at hd
    obtain rfl := Option.some.inj hd
    exact hv.length
  · dsimp only at hk
    rw [Function.update_apply] at hk
    rw [hs.dims]
    split at hk
    · obtain rfl := Option.some.inj hk
      exact ⟨hv, rfl⟩
    · obtain ⟨hu, hd⟩ := h.proper k u hk
      exact ⟨hu, hdims hd⟩

theorem Shows.update (h : i.Shows w) (hsize : i.nodes < none32) (key : String) (doc : Option Json) :
    ∃ i', i.update key doc = some i' ∧ i.Same i' 1 ∧ i'.Shows (w.update i.pattern i.path key doc) := by
  rw [VecIndex.update, View.update]
  by_cases hglob : (!globMatch i.pattern key) = true
  · rw [if_pos hglob, if_pos hglob]
    exact ⟨i, rfl, ⟨rfl, rfl, rfl, rfl, Nat.le_succ _⟩, h⟩
  · rw [if_neg hglob, if_neg hglob]
    dsimp only
    cases hv : (doc.bind fun d => JsonPath.get d i.path).bind fromJson with
    | none =>
        dsimp only
        rw [h.notVectors]
        have h' : Shows { i with notVectors := if (doc.bind fun d => JsonPath.get d i.path).isSome then w.notVectors + 1 else w.notVectors }
            { w with notVectors := if (doc.bind fun d => JsonPath.get d i.path).isSome then w.notVectors + 1 else w.notVectors } := by
          refine ⟨h.dims, h.rejected, rfl, h.bound, h.proper, ?_⟩
          rcases h.store with ⟨m, hm⟩ | ⟨g, hg⟩
          · exact .inl ⟨m, hm.store, hm.entries, hm.bytes⟩
          · exact .inr ⟨g, hg.store, hg.formed, hg.holds, hg.shown⟩
        obtain ⟨i', hremove, hsame, hshows⟩ := h'.remove key
        have hsame' : i.Same i' 0 := ⟨hsame.pattern, hsame.field, hsame.path, hsame.kind, hsame.nodes⟩
        exact ⟨i', hremove, hsame'.mono (Nat.zero_le 1), hshows⟩
    | some v =>
        dsimp only
        obtain ⟨j, -, hj⟩ := Option.bind_eq_some_iff.mp hv
        have hproper := fromJson_proper hj
        rw [← h.dims]
        by_cases hfit : (i.dims.any fun d => d ≠ v.length) = true
        · rw [if_pos hfit, if_pos hfit]
          obtain ⟨i', hremove, hsame, hshows⟩ := h.remove key
          refine ⟨{ i' with rejected := i'.rejected + 1 }, ?_, ?_, ?_⟩
          · rw [hremove]
            rfl
          · have hsame' : i.Same { i' with rejected := i'.rejected + 1 } 0 :=
              ⟨hsame.pattern, hsame.field, hsame.path, hsame.kind, hsame.nodes⟩
            exact hsame'.mono (Nat.zero_le 1)
          · refine ⟨hshows.dims.trans h.dims.symm, congrArg (· + 1) hshows.rejected, hshows.notVectors, hshows.bound, hshows.proper, ?_⟩
            rcases hshows.store with ⟨m, hm⟩ | ⟨g, hg⟩
            · exact .inl ⟨m, hm.store, hm.entries, hm.bytes⟩
            · exact .inr ⟨g, hg.store, hg.formed, hg.holds, hg.shown⟩
        · rw [if_neg hfit, if_neg hfit]
          exact h.put hsize key hproper (Bool.eq_false_iff.mpr hfit)

theorem Shows.clear (h : i.Shows w) : i.Same i.clear 0 ∧ i.clear.Shows View.empty := by
  have hpair : i.Same i.clear 0 ∧ ((∃ m, i.clear.Exact m fun _ => none) ∨ ∃ g, i.clear.Linking g fun _ => none) := by
    rw [VecIndex.clear]
    rcases h.store with ⟨m, hm⟩ | ⟨g, hg⟩
    · rw [hm.store]
      exact ⟨⟨rfl, rfl, rfl, by rw [kind, kind, hm.store], Nat.zero_le _⟩, .inl ⟨∅, rfl, fun k => ExtTreeMap.getElem?_empty, (tally_empty _).symm⟩⟩
    · rw [hg.store]
      refine ⟨⟨rfl, rfl, rfl, ?_, Nat.zero_le _⟩,
        .inr ⟨g.clear, rfl, Hnsw.blank_formed g.params g.rng 1, fun n hn => absurd hn List.not_mem_nil, fun k => ?_⟩⟩
      · rw [kind, kind, hg.store]
        rfl
      · rw [show g.clear.stored k = none from Hnsw.blank_stored g.params g.rng 1 k]
        exact .none
  refine ⟨hpair.1, rfl, rfl, rfl, fun d hd => ?_, fun k v hk => ?_, hpair.2⟩
  · cases hd
  · cases hk

theorem Shows.onGraph (h : i.Shows w) (hsize : i.nodes ≤ none32) (op : Hnsw.Op) (hop : op.nodes = 0)
    (hkept : ∀ (q : Quant) (stored : String → Option Stored), (∀ k, Option.Rel (Shown q) (stored k) (w.vectors k)) →
      ∀ k, Option.Rel (Shown q) (op.onMap q stored k) (w.vectors k)) :
    ∃ i', i.onGraph op = some i' ∧ i.Same i' 0 ∧ i'.Shows w := by
  rw [VecIndex.onGraph]
  rcases h.store with ⟨m, hm⟩ | ⟨g, hg⟩
  · rw [hm.store]
    exact ⟨i, rfl, ⟨rfl, rfl, rfl, rfl, le_rfl⟩, h⟩
  · have hnodes : i.nodes = g.nodes.length := by rw [nodes, hg.store]
    obtain ⟨g', happly, hs⟩ := hg.apply op (by omega)
      (fun k v heq => by
        rw [heq] at hop
        cases hop)
      (hkept _ g.stored hg.shown)
    rw [hg.store]
    refine ⟨{ i with store := .graph g' }, ?_, hop ▸ hs.toSame,
      ⟨h.dims, h.rejected, h.notVectors, h.bound, h.proper, hs.store⟩⟩
    dsimp only
    rw [happly]
    rfl

/-- How many nodes an operation may add. -/
def Op.more : Op → Nat
  | .update _ _ => 1
  | _ => 0

theorem Shows.step (h : i.Shows w) (op : Op) (hsize : i.nodes + op.more ≤ none32) :
    ∃ i', i.step op = some i' ∧ i.Same i' op.more ∧ i'.Shows (w.step i.pattern i.path op) := by
  cases op with
  | update key doc => exact h.update hsize key doc
  | remove key => exact h.remove key
  | clear => exact ⟨_, rfl, h.clear⟩
  | rebuild =>
      obtain ⟨i', hgraph, hrest⟩ := h.onGraph hsize .rebuild rfl fun q stored hstored k => rel_again (hstored k)
      exact ⟨i', hgraph, hrest⟩
  | search query k ef accept hidden => exact h.onGraph hsize (.search query k ef accept hidden) rfl fun _ _ hstored => hstored
  | filter query k ef accept => exact h.onGraph hsize (.filter query k ef accept) rfl fun _ _ hstored => hstored

/-- Whatever is done to an index, it stands for what was done. -/
theorem Shows.run (h : i.Shows w) (ops : List Op) (hsize : i.nodes + (ops.map Op.more).sum ≤ none32) :
    ∃ i', ops.foldlM VecIndex.step i = some i' ∧ i.Same i' (ops.map Op.more).sum ∧
      i'.Shows (ops.foldl (View.step i.pattern i.path) w) := by
  induction ops generalizing i w with
  | nil => exact ⟨i, rfl, ⟨rfl, rfl, rfl, rfl, le_rfl⟩, h⟩
  | cons op ops ih =>
      rw [List.map_cons, List.sum_cons] at hsize ⊢
      obtain ⟨i₁, hstep, hsame, h₁⟩ := h.step op (by omega)
      have hnodes := hsame.nodes
      obtain ⟨i', hrun, hsame', h'⟩ := ih h₁ (by omega)
      rw [hsame.pattern, hsame.path] at h'
      refine ⟨i', ?_, ⟨hsame'.pattern.trans hsame.pattern, hsame'.field.trans hsame.field, hsame'.path.trans hsame.path,
        hsame'.kind.trans hsame.kind, ?_⟩, h'⟩
      · rw [List.foldlM_cons, hstep]
        exact hrun
      · have hnodes' := hsame'.nodes
        omega

theorem withKind_shows (pattern field : String) (path : List Seg) (kind : Kind) :
    (withKind pattern field path kind).Shows View.empty ∧ (withKind pattern field path kind).nodes = 0 := by
  have hstore : (∃ m, (withKind pattern field path kind).Exact m fun _ => none) ∨
      ∃ g, (withKind pattern field path kind).Linking g fun _ => none := by
    cases kind with
    | exact => exact .inl ⟨∅, rfl, fun k => ExtTreeMap.getElem?_empty, (tally_empty _).symm⟩
    | hnsw p =>
        refine .inr ⟨.new p, rfl, Hnsw.blank_formed p (Hnsw.new p).rng 0, fun n hn => absurd hn List.not_mem_nil, fun k => ?_⟩
        rw [show (Hnsw.new p).stored k = none from Hnsw.blank_stored p (Hnsw.new p).rng 0 k]
        exact .none
  refine ⟨⟨rfl, rfl, rfl, fun d hd => ?_, fun k v hk => ?_, hstore⟩, ?_⟩
  · cases hd
  · cases hk
  · cases kind <;> rfl

theorem mem_entries (h : i.Shows w) {key : String} {p : List F32 × F32} : (key, p) ∈ i.entries ↔ i.get key = some (some p) := by
  rw [entries, get]
  rcases h.store with ⟨m, hm⟩ | ⟨g, hg⟩
  · rw [hm.store]
    dsimp only
    rw [ExtTreeMap.mem_toList_iff_getElem?_eq_some, Option.some.injEq]
  · rw [hg.store]
    dsimp only
    rw [hg.formed.get_eq, Option.some.injEq, Option.map_eq_some_iff, Hnsw.iter, List.mem_map]
    constructor
    · rintro ⟨n, hn, heq⟩
      cases heq
      have hnorm := hg.formed.norms n (List.mem_of_mem_filter hn)
      exact ⟨n.vector, hg.formed.stored_live hn, by rw [hnorm]⟩
    · rintro ⟨s, hs, rfl⟩
      obtain ⟨n, hn, rfl, rfl⟩ := hg.formed.live_of_stored hs
      exact ⟨n, hn, by rw [hg.formed.norms n (List.mem_of_mem_filter hn)]⟩

theorem keys_nodup (h : i.Shows w) : i.keys.Nodup := by
  rw [keys, entries]
  rcases h.store with ⟨m, hm⟩ | ⟨g, hg⟩
  · rw [hm.store]
    dsimp only
    rw [ExtTreeMap.map_fst_toList_eq_keys]
    exact ExtTreeMap.nodup_keys
  · rw [hg.store]
    dsimp only
    rw [Hnsw.iter, List.map_map]
    exact hg.formed.keys_nodup

/-- Read for `v`: the same numbers, unless they are quantized. -/
def Reads (q : Quant) (p : List F32 × F32) (v : List F32) : Prop :=
  p.2 = norm p.1 ∧ p.1.length = v.length ∧ (q = .none → Alike p.1 v)

theorem get_reads (h : i.Shows w) (key : String) :
    ∃ r, i.get key = some r ∧ Option.Rel (Reads i.kind.quant) r (w.vectors key) := by
  rw [get, kind]
  have hproper := h.proper key
  rcases h.store with ⟨m, hm⟩ | ⟨g, hg⟩
  · rw [hm.store]
    refine ⟨_, rfl, ?_⟩
    rw [hm.entries]
    cases hv : w.vectors key with
    | none => exact .none
    | some v => exact .some ⟨rfl, rfl, fun _ => (hproper v hv).1.alike⟩
  · rw [hg.store]
    refine ⟨_, hg.formed.get_eq key, ?_⟩
    have hshown := hg.shown key
    cases hs : g.stored key with
    | none =>
        rw [hs] at hshown
        cases hv : w.vectors key with
        | none => exact .none
        | some v =>
            rw [hv] at hshown
            cases hshown
    | some s =>
        rw [hs] at hshown
        cases hv : w.vectors key with
        | none =>
            rw [hv] at hshown
            cases hshown
        | some v =>
            rw [hv] at hshown
            obtain ⟨n, hn, -, rfl⟩ := hg.formed.live_of_stored hs
            have hdims := (hg.holds n (List.mem_of_mem_filter hn)).2.symm.trans (hproper v hv).2
            refine .some ⟨rfl, (length_vector _).trans (Option.some.inj hdims), fun hq => ?_⟩
            have hq : g.params.quant = .none := hq
            cases hshown with
            | some hshown =>
                rw [hq] at hshown
                obtain ⟨u, hu, halike⟩ := hshown
                rw [hu]
                exact halike

theorem mem_keys (h : i.Shows w) (key : String) : key ∈ i.keys ↔ (w.vectors key).isSome = true := by
  obtain ⟨r, hget, hrel⟩ := get_reads h key
  rw [keys, List.mem_map]
  constructor
  · rintro ⟨⟨_, p⟩, he, rfl⟩
    rw [mem_entries h, hget] at he
    obtain rfl := Option.some.inj he
    cases hv : w.vectors _ with
    | some v => rfl
    | none =>
        rw [hv] at hrel
        cases hrel
  · intro hv
    cases r with
    | some p => exact ⟨(key, p), (mem_entries h).mpr hget, rfl⟩
    | none =>
        obtain ⟨v, hv⟩ := Option.isSome_iff_exists.mp hv
        rw [hv] at hrel
        cases hrel

end VecIndex

end

section Samples

attribute [local instance] Hnsw.unitFloats

end Samples

end KivaDb.Vector
