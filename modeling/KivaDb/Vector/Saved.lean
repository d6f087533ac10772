import KivaDb.Lib.Framing
import KivaDb.Vector.Runs

namespace KivaDb.Vector

open Lib.LittleEndian Lib.Utf8 Lib.Framing

def u32 : Cursor UInt8 UInt32 := do return u32At (← take 4) 0

def u64 : Cursor UInt8 UInt64 := do return u64At (← take 8) 0

/-- Bytes after their length. -/
def bytes : Cursor UInt8 Bytes := do take (← u32).toNat

def f32At : Cursor UInt8 F32 := do return ⟨← u32⟩

/-- A length-prefixed text. -/
def text : Cursor UInt8 String := do StateT.lift (fromUtf8 (← bytes))

def putU32 (n : Nat) : Bytes := le32 (UInt32.ofNat n)

def putBytes (b : Bytes) : Bytes := putU32 b.length ++ b

def writeStr (s : String) : Bytes := putBytes (asBytes s)

def Metric.tag : Metric → UInt8
  | .cosine => 0
  | .dot => 1
  | .l2 => 2

def Quant.tag : Quant → UInt8
  | .none => 0
  | .sq8 => 1

def Metric.ofTag (t : UInt8) : Option Metric :=
  if t = 0 then some .cosine else if t = 1 then some .dot else if t = 2 then some .l2 else none

def Quant.ofTag (t : UInt8) : Option Quant := if t = 0 then some .none else if t = 1 then some .sq8 else none

def writeStored : Stored → Bytes
  | .full v => v.flatMap fun x => le32 x.bits
  | .sq8 s => le32 s.lo.bits ++ (le32 s.step.bits ++ s.codes)

def writeLayer (l : List Nat) : Bytes := putU32 l.length ++ l.flatMap putU32

namespace Hnsw

variable [Floats]

def writeNode (n : Node) : Bytes :=
  writeStr n.key ++ ((if n.deleted then 1 else 0) :: (putU32 n.vector.dims ++ (writeStored n.vector ++
    (UInt8.ofNat n.links.length :: n.links.flatMap writeLayer))))

/-- The bytes a graph is saved as. -/
def write (g : Hnsw) : Bytes :=
  -- the quantization in the high bits
  (g.params.metric.tag ||| (g.params.quant.tag <<< 4)) :: (putU32 g.params.m ++ (putU32 g.params.efConstruction ++
    (putU32 g.entry ++ (putU32 g.maxLevel ++ (le64 g.rng ++ (putU32 g.nodes.length ++ g.nodes.flatMap writeNode))))))

def readStored (dims : Nat) : Quant → Cursor UInt8 Stored
  | .none => do return .full (← times f32At dims)
  | .sq8 => do
      let lo ← f32At
      let step ← f32At
      return .sq8 (Sq8.fromCodes (← take dims) lo step)

/-- A link, to one of `count` nodes. -/
def readLink (count : Nat) : Cursor UInt8 Nat := do
  let id ← u32
  if count ≤ id.toNat then failure else return id.toNat

def readLayer (count : Nat) : Cursor UInt8 (List Nat) := do times (readLink count) (← u32).toNat

def readNode (count : Nat) (quant : Quant) : Cursor UInt8 Node := do
  let key ← text
  let deleted ← u8
  let dims ← u32
  let vector ← readStored dims.toNat quant
  let levels ← u8
  let links ← times (readLayer count) levels.toNat
  return ⟨key, vector, norm vector.vector, links, deleted != 0⟩

/-- A node read back enters the books. -/
def hold (g : Hnsw) (n : Node) : Hnsw :=
  let id := g.nodes.length % 2 ^ 32
  let bytes := g.bytes + g.params.nodeBytes (keyLen n.key) n.vector.dims n.links.length
  if n.deleted then { g with bytes := bytes - (keyLen n.key + 40), deleted := g.deleted + 1, nodes := g.nodes ++ [n] }
  else { g with bytes, ids := g.ids.insert n.key id, nodes := g.nodes ++ [n] }

def readNodes (count : Nat) : Nat → Hnsw → Cursor UInt8 Hnsw
  | 0, g => return g
  | k + 1, g => do
      let n ← readNode count g.params.quant
      readNodes count k (g.hold n)

def validEntry (g : Hnsw) (count : Nat) : Bool :=
  if count = 0 then g.entry = none32 else g.entry < count && (g.nodes[g.entry]?).any fun n => n.links.length = g.maxLevel + 1

/-- A link on a layer must lead to a node that has that layer. -/
def consistent (g : Hnsw) : Bool :=
  g.nodes.all fun n => ((g.nodes[0]?).any fun first => n.vector.dims = first.vector.dims) &&
    n.links.zipIdx.all fun p => p.1.all fun id => (g.nodes[id]?).any fun m => p.2 < m.links.length

def read : Cursor UInt8 Hnsw := do
  let flags ← u8
  let metric ← StateT.lift (Metric.ofTag (flags &&& 0x0f))
  let quant ← StateT.lift (Quant.ofTag (flags >>> 4))
  let m ← u32
  let ef ← u32
  let entry ← u32
  let maxLevel ← u32
  let rng ← u64
  let count ← u32
  let g ← readNodes count.toNat count.toNat
    { new ⟨metric, m.toNat, ef.toNat, quant⟩ with rng, entry := entry.toNat, maxLevel := maxLevel.toNat }
  if g.validEntry count.toNat && g.consistent then return g else failure

end Hnsw

theorem toNat_small {n : Nat} (h : n < 2 ^ 32) : (UInt32.ofNat n).toNat = n := UInt32.toNat_ofNat_of_lt h

theorem consumes_u32 (x : UInt32) : Consumes u32 (le32 x) x := by
  refine (Consumes.take_of (length_le32 x)).last ?_
  have h := u32At_le32_append x []
  rw [List.append_nil] at h
  rw [h]
  exact Consumes.pure x

theorem consumes_u64 (x : UInt64) : Consumes u64 (le64 x) x := by
  refine (Consumes.take_of (length_le64 x)).last ?_
  have h : u64At (le64 x) 0 = x := u64At_of_append (p := []) (r := []) (by rw [List.append_nil]; rfl) rfl
  rw [h]
  exact Consumes.pure x

theorem consumes_f32 (x : F32) : Consumes f32At (le32 x.bits) x := (consumes_u32 x.bits).last (Consumes.pure x)

theorem consumes_text {s : String} (h : (asBytes s).length < 2 ^ 32) : Consumes text (writeStr s) s := by
  have hbytes : Consumes bytes (writeStr s) (asBytes s) :=
    (consumes_u32 _).bind (Consumes.take_of (toNat_small h).symm)
  refine hbytes.last ?_
  rw [fromUtf8_asBytes]
  exact Consumes.pure s

theorem consumes_floats (v : List F32) : Consumes (times f32At v.length) (v.flatMap fun x => le32 x.bits) v :=
  Consumes.times fun x _ => consumes_f32 x

/-- What a graph of this quantization stores. -/
def Stored.Of : Quant → Stored → Prop
  | .none, s => ∃ v, s = .full v
  | .sq8, s => ∃ codes lo step, s = .sq8 (Sq8.fromCodes codes lo step)

theorem Stored.of_new [Floats] (v : List F32) (q : Quant) : Stored.Of q (Stored.new v q) := by
  cases q with
  | none => exact ⟨v, rfl⟩
  | sq8 => exact ⟨_, _, _, rfl⟩

theorem tags_back (metric : Metric) (quant : Quant) :
    Metric.ofTag ((metric.tag ||| (quant.tag <<< 4)) &&& 0x0f) = some metric ∧
      Quant.ofTag ((metric.tag ||| (quant.tag <<< 4)) >>> 4) = some quant := by
  cases metric <;> cases quant <;> decide

namespace Hnsw

variable {g : Hnsw} {count : Nat}

theorem consumes_stored {q : Quant} {s : Stored} (h : Stored.Of q s) : Consumes (readStored s.dims q) (writeStored s) s := by
  cases q with
  | none =>
      obtain ⟨v, rfl⟩ := h
      exact (consumes_floats v).last (Consumes.pure _)
  | sq8 =>
      obtain ⟨codes, lo, step, rfl⟩ := h
      exact (consumes_f32 lo).bind ((consumes_f32 step).bind ((Consumes.take codes).last (Consumes.pure _)))

theorem consumes_layer {l : List Nat} (hcount : count ≤ none32) (hlen : l.length < 2 ^ 32) (hl : ∀ id ∈ l, id < count) :
    Consumes (readLayer count) (writeLayer l) l := by
  refine (consumes_u32 _).bind ?_
  rw [toNat_small hlen]
  refine Consumes.times fun id hid => (consumes_u32 _).last ?_
  have hsmall : id < 2 ^ 32 := (hl id hid).trans_le (hcount.trans (Nat.sub_le _ _))
  rw [toNat_small hsmall, if_neg (Nat.not_le.mpr (hl id hid))]
  exact Consumes.pure id

/-- A node that a file can hold. -/
structure Fits (count : Nat) (quant : Quant) (n : Node) : Prop where
  key : keyLen n.key < 2 ^ 32
  vector : Stored.Of quant n.vector
  dims : n.vector.dims < 2 ^ 32
  levels : n.links.length < 2 ^ 8
  links : ∀ l ∈ n.links, l.length < 2 ^ 32 ∧ ∀ id ∈ l, id < count

variable [Floats]

theorem consumes_node {n : Node} {q : Quant} (hcount : count ≤ none32) (h : Fits count q n) (hnorm : n.norm = norm n.vector.vector) :
    Consumes (readNode count q) (writeNode n) n := by
  refine (consumes_text h.key).bind (Consumes.byte ((consumes_u32 _).bind ?_))
  rw [toNat_small h.dims]
  refine (consumes_stored h.vector).bind (Consumes.byte ?_)
  have hlevels : (UInt8.ofNat n.links.length).toNat = n.links.length := UInt8.toNat_ofNat_of_lt h.levels
  rw [hlevels]
  refine (Consumes.times fun l hl => consumes_layer hcount (h.links l hl).1 (h.links l hl).2).last ?_
  have hdead : ((if n.deleted then (1 : UInt8) else 0) != 0) = n.deleted := by cases n.deleted <;> rfl
  rw [hdead, ← hnorm]
  exact Consumes.pure n

omit [Floats] in
theorem params_hold (g : Hnsw) (n : Node) : (g.hold n).params = g.params := by
  unfold hold
  split <;> rfl

omit [Floats] in
theorem nodes_hold (g : Hnsw) (n : Node) : (g.hold n).nodes = g.nodes ++ [n] := by
  unfold hold
  split <;> rfl

theorem consumes_nodes {ns : List Node} (hcount : count ≤ none32) (h : ∀ n ∈ ns, Fits count g.params.quant n)
    (hnorm : ∀ n ∈ ns, n.norm = norm n.vector.vector) :
    Consumes (readNodes count ns.length g) (ns.flatMap writeNode) (ns.foldl hold g) := by
  induction ns generalizing g with
  | nil => exact Consumes.pure g
  | cons n ns ih =>
      obtain ⟨hn, hns⟩ := List.forall_mem_cons.mp h
      obtain ⟨hnorm, hnorms⟩ := List.forall_mem_cons.mp hnorm
      rw [List.flatMap_cons]
      exact (consumes_node hcount hn hnorm).bind (ih (by rwa [params_hold]) hnorms)

/-- What is known of the nodes read so far. -/
structure Books (g : Hnsw) : Prop where
  count : g.deleted = g.nodes.countP fun n => n.deleted
  bytes : g.bytes = (g.nodes.map (cost g.params)).sum
  ids : ∀ {key id}, g.ids[key]? = some id → ∃ n : Node, g.nodes[id]? = some n ∧ n.key = key ∧ n.deleted = false
  held : ∀ n ∈ g.nodes, n.deleted = false → (g.ids[n.key]?).isSome

omit [Floats] in
theorem ids_hold (g : Hnsw) (n : Node) (hsize : g.nodes.length < 2 ^ 32) (k : String) :
    (g.hold n).ids[k]? = if n.deleted = false ∧ k = n.key then some g.nodes.length else g.ids[k]? := by
  unfold hold
  cases hdead : n.deleted with
  | true =>
      rw [if_pos rfl, if_neg]
      rintro ⟨⟨⟩, -⟩
  | false =>
      rw [if_neg Bool.false_ne_true]
      refine (getElem?_insert _ _ _ _).trans ?_
      rw [Nat.mod_eq_of_lt hsize]
      by_cases hk : k = n.key
      · rw [if_pos hk, if_pos ⟨rfl, hk⟩]
      · rw [if_neg hk, if_neg fun h => hk h.2]

omit [Floats] in
theorem Books.hold (hb : g.Books) (n : Node) (hsize : g.nodes.length < 2 ^ 32) : (g.hold n).Books := by
  refine ⟨?_, ?_, fun {k i} hk => ?_, fun m hm hlive => ?_⟩
  · rw [nodes_hold, List.countP_append, List.countP_singleton]
    unfold Hnsw.hold
    split
    · exact congrArg (· + 1) hb.count
    · exact hb.count
  · rw [nodes_hold, params_hold, List.map_append, List.sum_append, ← hb.bytes, List.map_singleton, List.sum_singleton]
    unfold Hnsw.hold cost
    split
    · dsimp only
      have hcost : keyLen n.key + 40 ≤ g.params.nodeBytes (keyLen n.key) n.vector.dims n.links.length := by
        unfold Params.nodeBytes
        exact Nat.add_le_add_right (Nat.le_add_left _ _) 40
      omega
    · dsimp only
      omega
  · rw [ids_hold _ _ hsize] at hk
    rw [nodes_hold]
    split at hk
    · next h =>
      obtain rfl := Option.some.inj hk
      refine ⟨n, ?_, h.2.symm, h.1⟩
      rw [List.getElem?_append_right le_rfl, Nat.sub_self]
      rfl
    · obtain ⟨m, hm, hrest⟩ := hb.ids hk
      refine ⟨m, ?_, hrest⟩
      rw [List.getElem?_append_left (List.getElem?_eq_some_iff.mp hm).1]
      exact hm
  · rw [ids_hold _ _ hsize]
    split
    · rfl
    · next hnot =>
      rw [nodes_hold, List.mem_append, List.mem_singleton] at hm
      rcases hm with hm | rfl
      · exact hb.held m hm hlive
      · exact absurd ⟨hlive, rfl⟩ hnot

/-- What the nodes read do not change. -/
structure SameHead (g g' : Hnsw) : Prop where
  params : g'.params = g.params
  entry : g'.entry = g.entry
  maxLevel : g'.maxLevel = g.maxLevel
  rng : g'.rng = g.rng
  changes : g'.changes = g.changes
  visits : g'.visits = g.visits

omit [Floats] in
theorem SameHead.hold {g' : Hnsw} (n : Node) (h : (g.hold n).SameHead g') : g.SameHead g' := by
  obtain ⟨hparams, hentry, hmax, hrng, hchanges, hvisits⟩ := h
  refine ⟨hparams.trans (params_hold g n), hentry.trans ?_, hmax.trans ?_, hrng.trans ?_, hchanges.trans ?_, hvisits.trans ?_⟩
  all_goals
    unfold Hnsw.hold
    split <;> rfl

omit [Floats] in
theorem Books.holds (hb : g.Books) {ns : List Node} (hsize : g.nodes.length + ns.length ≤ none32) :
    (ns.foldl Hnsw.hold g).Books ∧ g.SameHead (ns.foldl Hnsw.hold g) ∧ (ns.foldl Hnsw.hold g).nodes = g.nodes ++ ns := by
  induction ns generalizing g with
  | nil => exact ⟨hb, ⟨rfl, rfl, rfl, rfl, rfl, rfl⟩, (List.append_nil _).symm⟩
  | cons n ns ih =>
      rw [List.length_cons] at hsize
      have hlt : g.nodes.length < 2 ^ 32 := by
        unfold none32 at hsize
        omega
      have hlen : (g.hold n).nodes.length = g.nodes.length + 1 := by rw [nodes_hold, List.length_append, List.length_singleton]
      obtain ⟨hb', hsame, hnodes⟩ := ih (hb.hold n hlt) (by omega)
      refine ⟨hb', hsame.hold n, hnodes.trans ?_⟩
      rw [nodes_hold, List.append_assoc, List.singleton_append]

theorem gives_nodes (k : Nat) : Gives (readNodes count k g) fun g' => ∃ ns : List Node, ns.length = k ∧ g' = ns.foldl Hnsw.hold g := by
  induction k generalizing g with
  | zero => exact Gives.pure ⟨[], rfl, rfl⟩
  | succ k ih =>
      refine Gives.next fun n => ih.mono ?_
      rintro g' ⟨ns, hlen, rfl⟩
      exact ⟨n :: ns, congrArg (· + 1) hlen, rfl⟩

/-- The graph before its nodes are read. -/
def header (params : Params) (rng : UInt64) (entry maxLevel : Nat) : Hnsw := { blank params rng 0 with entry, maxLevel }

omit [Floats] in
theorem header_books (params : Params) (rng : UInt64) (entry maxLevel : Nat) : (header params rng entry maxLevel).Books := by
  refine ⟨rfl, rfl, fun {k i} hk => ?_, fun n hn => absurd hn List.not_mem_nil⟩
  have hk : (blank params rng 0).ids[k]? = some i := hk
  rw [ids_blank] at hk
  cases hk

omit [Floats] in
/-- Once it is checked, no link leads past the layers of a node. -/
theorem layered_of_consistent (h : g.consistent = true) : g.Layered := by
  intro l i ns hns id hid
  obtain ⟨n, hn, hl⟩ := Option.bind_eq_some_iff.mp hns
  have hall := List.all_eq_true.mp h n (List.mem_of_getElem? hn)
  rw [Bool.and_eq_true] at hall
  have hmem : (ns, l) ∈ n.links.zipIdx := List.mk_mem_zipIdx_iff_getElem?.mpr hl
  have hlink := List.all_eq_true.mp (List.all_eq_true.mp hall.2 _ hmem) id hid
  cases hm : g.nodes[id]? with
  | some m =>
      rw [hm] at hlink
      exact isSome_linksAt.mpr ⟨m, hm, of_decide_eq_true hlink⟩
  | none =>
      rw [hm] at hlink
      cases hlink

/-- Whatever bytes are accepted, the graph is usable. -/
theorem gives_usable : Gives read Usable := by
  unfold read
  refine Gives.next fun flags => Gives.next fun metric => Gives.next fun quant => Gives.next fun m => Gives.next fun ef =>
    Gives.next fun entry => Gives.next fun maxLevel => Gives.next fun rng => Gives.next fun count => ?_
  refine (gives_nodes (g := header ⟨metric, m.toNat, ef.toNat, quant⟩ rng entry.toNat maxLevel.toNat) count.toNat).bind ?_
  rintro g ⟨ns, hlen, rfl⟩
  have hcount : ns.length ≤ none32 := hlen.trans_le (Nat.le_pred_of_lt count.toNat_lt)
  obtain ⟨hbooks, hsame, hnodes⟩ := (header_books ⟨metric, m.toNat, ef.toNat, quant⟩ rng entry.toNat maxLevel.toNat).holds
    ((Nat.zero_add _).trans_le hcount)
  set g := ns.foldl Hnsw.hold (header ⟨metric, m.toNat, ef.toNat, quant⟩ rng entry.toNat maxLevel.toNat)
  have hlen' : g.nodes.length = count.toNat := by
    rw [hnodes]
    exact hlen
  split
  · next hvalid =>
    rw [Bool.and_eq_true, validEntry] at hvalid
    obtain ⟨hentry, hconsistent⟩ := hvalid
    refine Gives.pure ⟨⟨layered_of_consistent hconsistent, fun hne => ?_, fun hnone => ?_, hbooks.ids⟩, hbooks.count,
      hbooks.bytes, ?_, hlen'.trans_le (hlen.symm.trans_le hcount)⟩
    · split at hentry
      · exact absurd (of_decide_eq_true hentry) hne
      · rw [Bool.and_eq_true] at hentry
        cases hm : g.nodes[g.entry]? with
        | some m =>
            rw [hm] at hentry
            have hlevels : m.links.length = g.maxLevel + 1 := of_decide_eq_true hentry.2
            exact isSome_linksAt.mpr ⟨m, hm, hlevels.symm ▸ Nat.lt_succ_self _⟩
        | none =>
            rw [hm] at hentry
            cases hentry.2
    · split at hentry
      · next hzero => exact List.eq_nil_of_length_eq_zero (hlen'.trans hzero)
      · rw [Bool.and_eq_true] at hentry
        have hlt : g.entry < count.toNat := of_decide_eq_true hentry.1
        omega
    · rw [hsame.visits]
      exact fun m hm => absurd hm List.not_mem_nil
  · exact Gives.fail

/-- A graph whose sizes fit in their fields, and that holds vectors of one length. -/
structure Writable (g : Hnsw) : Prop where
  m : g.params.m < 2 ^ 32
  ef : g.params.efConstruction < 2 ^ 32
  keys : ∀ n ∈ g.nodes, keyLen n.key < 2 ^ 32
  vectors : ∀ n ∈ g.nodes, Stored.Of g.params.quant n.vector ∧ n.vector.dims < 2 ^ 32
  alike : ∀ n ∈ g.nodes, ∀ m ∈ g.nodes, n.vector.dims = m.vector.dims

theorem Formed.fits (hf : g.Formed) (hw : g.Writable) {n : Node} (hn : n ∈ g.nodes) : Fits g.nodes.length g.params.quant n := by
  obtain ⟨i, hi⟩ := List.getElem?_of_mem hn
  have hlevels := (hf.levels n hn).2
  have htop := hf.top
  have hsize := hf.size
  refine ⟨hw.keys n hn, (hw.vectors n hn).1, (hw.vectors n hn).2, ?_, fun l hl => ?_⟩
  · unfold maxLevelBound at htop
    omega
  · obtain ⟨level, hlevel⟩ := List.getElem?_of_mem hl
    have hat : g.linksAt level i = some l := by
      rw [linksAt, hi]
      exact hlevel
    have hids : ∀ id ∈ l, id < g.nodes.length := fun id hid => lt_of_linksAt (hf.links hat id hid)
    refine ⟨?_, hids⟩
    have hle : l.length ≤ g.nodes.length := by
      have hsub : l ⊆ List.range g.nodes.length := fun id hid => List.mem_range.mpr (hids id hid)
      have h := ((hf.bounded hat).2.1.subperm hsub).length_le
      rwa [List.length_range] at h
    unfold none32 at hsize
    omega

omit [Floats] in
theorem Linked.validEntry (hl : g.Linked) (hlevels : ∀ n ∈ g.nodes, n.links.length ≤ g.maxLevel + 1) :
    g.validEntry g.nodes.length = true := by
  rw [Hnsw.validEntry]
  by_cases hentry : g.entry = none32
  · rw [if_pos (by rw [hl.empty hentry]; rfl)]
    exact decide_eq_true hentry
  · obtain ⟨n, hn, hlt⟩ := isSome_linksAt.mp (hl.entry hentry)
    have hid := (List.getElem?_eq_some_iff.mp hn).1
    have hle := hlevels n (List.mem_of_getElem? hn)
    rw [if_neg (Nat.ne_of_gt (Nat.zero_lt_of_lt hid)), hn, Bool.and_eq_true]
    exact ⟨decide_eq_true hid, decide_eq_true (by omega)⟩

omit [Floats] in
theorem consistent_of_layered (hl : g.Layered) (halike : ∀ n ∈ g.nodes, ∀ m ∈ g.nodes, n.vector.dims = m.vector.dims) :
    g.consistent = true := by
  refine List.all_eq_true.mpr fun n hn => ?_
  rw [Bool.and_eq_true]
  constructor
  · cases hfirst : g.nodes[0]? with
    | some first => exact decide_eq_true (halike n hn first (List.mem_of_getElem? hfirst))
    | none =>
        rw [List.getElem?_eq_none_iff, Nat.le_zero, List.length_eq_zero_iff] at hfirst
        rw [hfirst] at hn
        exact absurd hn List.not_mem_nil
  · refine List.all_eq_true.mpr fun p hp => List.all_eq_true.mpr fun id hid => ?_
    obtain ⟨i, hi⟩ := List.getElem?_of_mem hn
    have hat : g.linksAt p.2 i = some p.1 := by
      rw [linksAt, hi]
      exact List.mk_mem_zipIdx_iff_getElem?.mp hp
    obtain ⟨m, hm, hlt⟩ := isSome_linksAt.mp (hl hat id hid)
    rw [hm]
    exact decide_eq_true hlt

/-- The books follow from the nodes, when no key has two of them. -/
theorem Formed.held (hf : g.Formed) : g.nodes.foldl hold (header g.params g.rng g.entry g.maxLevel) =
    { g with changes := 0, visits := ⟨[], 0⟩ } := by
  obtain ⟨hbooks, hsame, hnodes⟩ := (header_books g.params g.rng g.entry g.maxLevel).holds ((Nat.zero_add _).trans_le hf.size)
  set g' := g.nodes.foldl hold (header g.params g.rng g.entry g.maxLevel)
  have hnodes : g'.nodes = g.nodes := hnodes
  have hparams : g'.params = g.params := hsame.params
  have hids : g'.ids = g.ids := by
    refine Std.ExtTreeMap.ext_getElem? fun {k} => ?_
    cases hk : g.ids[k]? with
    | some i =>
        obtain ⟨n, hn, rfl, hlive⟩ := hf.ids hk
        obtain ⟨j, hj⟩ := Option.isSome_iff_exists.mp (hbooks.held n (hnodes ▸ List.mem_of_getElem? hn) hlive)
        obtain ⟨m, hm, hkey, hmlive⟩ := hbooks.ids hj
        have hunique := hf.unique (hnodes ▸ hm) hmlive
        rw [hkey, hk] at hunique
        rw [hj, hunique]
    | none =>
        cases hj : g'.ids[k]? with
        | none => rfl
        | some j =>
            obtain ⟨m, hm, rfl, hmlive⟩ := hbooks.ids hj
            rw [hf.unique (hnodes ▸ hm) hmlive] at hk
            cases hk
  have hdeleted : g'.deleted = g.deleted := by rw [hbooks.count, hf.count, hnodes]
  have hbytes : g'.bytes = g.bytes := by rw [hbooks.bytes, hf.bytes, hnodes, hparams]
  have heta : g' = ⟨g'.params, g'.nodes, g'.ids, g'.entry, g'.maxLevel, g'.deleted, g'.rng, g'.changes, g'.bytes, g'.visits⟩ := rfl
  rw [heta, hparams, hnodes, hids, hdeleted, hbytes, hsame.entry, hsame.maxLevel, hsame.rng, hsame.changes, hsame.visits]
  rfl

/-- What is saved is read back: only what the searches mark and the count of changes are new. -/
theorem read_write (hf : g.Formed) (hw : g.Writable) :
    Consumes read g.write { g with changes := 0, visits := ⟨[], 0⟩ } := by
  have hnodes : g.nodes.length < 2 ^ 32 := Nat.lt_succ_of_le hf.size
  have hentry : g.entry < 2 ^ 32 := by
    by_cases hnone : g.entry = none32
    · rw [hnone]
      decide
    · exact (lt_of_linksAt (hf.entry hnone)).trans hnodes
  have hmax : g.maxLevel < 2 ^ 32 := hf.top.trans_lt (by decide)
  obtain ⟨hmetric, hquant⟩ := tags_back g.params.metric g.params.quant
  refine Consumes.byte ?_
  rw [hmetric, hquant]
  refine (Consumes.pure g.params.metric).after ((Consumes.pure g.params.quant).after ?_)
  refine (consumes_u32 _).bind ((consumes_u32 _).bind ((consumes_u32 _).bind ((consumes_u32 _).bind ((consumes_u64 _).bind
    ((consumes_u32 _).bind ?_)))))
  rw [toNat_small hw.m, toNat_small hw.ef, toNat_small hentry, toNat_small hmax, toNat_small hnodes]
  have hread : Consumes (readNodes g.nodes.length g.nodes.length (header g.params g.rng g.entry g.maxLevel))
      (g.nodes.flatMap writeNode) { g with changes := 0, visits := ⟨[], 0⟩ } := by
    rw [← hf.held]
    exact consumes_nodes hf.size (fun n hn => hf.fits hw hn) hf.norms
  refine hread.last ?_
  have hvalid : Hnsw.validEntry { g with changes := 0, visits := ⟨[], 0⟩ } g.nodes.length = true :=
    hf.validEntry fun n hn => (hf.levels n hn).2
  have hconsistent : Hnsw.consistent { g with changes := 0, visits := ⟨[], 0⟩ } = true :=
    consistent_of_layered hf.links hw.alike
  rw [hvalid, hconsistent]
  exact Consumes.pure _

end Hnsw

end KivaDb.Vector
