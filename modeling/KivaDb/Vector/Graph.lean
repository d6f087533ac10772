import KivaDb.Lib.BestFirst
import KivaDb.Lib.Utf8
import KivaDb.Num
import Mathlib.Order.Compare
import Mathlib.Order.Lattice
import Std.Data.ExtTreeMap

namespace KivaDb.Vector

open Std (ExtTreeMap)
open Lib.Heap Lib.LittleEndian Lib.Utf8

/-- A 32-bit float, by its bits. -/
structure F32 where
  bits : UInt32
  deriving DecidableEq

namespace F32

def zero : F32 := ⟨0⟩

def one : F32 := ⟨0x3f800000⟩

def infinity : F32 := ⟨0x7f800000⟩

def negInfinity : F32 := ⟨0xff800000⟩

def negative (x : F32) : Bool := 2 ^ 31 ≤ x.bits.toNat

def magnitude (x : F32) : Nat := x.bits.toNat % 2 ^ 31

def isNan (x : F32) : Bool := 0x7f800000 < x.magnitude

/-- Where a number stands among the others; both zeros stand at zero. -/
def place (x : F32) : Int := if x.negative then -x.magnitude else x.magnitude

def lt (x y : F32) : Bool := !x.isNan && !y.isNan && decide (x.place < y.place)

def same (x y : F32) : Bool := !x.isNan && !y.isNan && decide (x.place = y.place)

/-- The place in the total order, where `-0` comes before `0` and the NaNs at the ends. -/
def totalPlace (x : F32) : Int := if x.negative then -1 - x.magnitude else x.magnitude

def totalCmp (x y : F32) : Ordering := compare x.totalPlace y.totalPlace

def neg (x : F32) : F32 := ⟨x.bits ^^^ 0x80000000⟩

theorem lt_irrefl (x : F32) : x.lt x = false := by
  simp [lt]

theorem lt_trans {x y z : F32} (hxy : x.lt y = true) (hyz : y.lt z = true) : x.lt z = true := by
  simp only [lt, Bool.and_eq_true, Bool.not_eq_true', decide_eq_true_eq] at *
  exact ⟨⟨hxy.1.1, hyz.1.2⟩, hxy.2.trans hyz.2⟩

end F32

/-- The arithmetic of 32-bit floats, which rounds, and the layer that a random number gives. -/
class Floats where
  add : F32 → F32 → F32
  sub : F32 → F32 → F32
  mul : F32 → F32 → F32
  div : F32 → F32 → F32
  min : F32 → F32 → F32
  max : F32 → F32 → F32
  sum : List F32 → F32
  sqrt : F32 → F32
  ofNat : Nat → F32
  /-- A double as a float. -/
  narrow : F64 → F32
  /-- `x.round().clamp(0.0, 255.0) as u8` -/
  code : F32 → UInt8
  /-- `(-((u + 0.5) / 2^53).ln() / m.ln()) as usize` -/
  layer : Nat → Nat → Nat

inductive Metric
  | cosine
  | dot
  | l2
  deriving DecidableEq

inductive Quant
  | none
  | sq8
  deriving DecidableEq

structure Params where
  metric : Metric
  m : Nat
  efConstruction : Nat
  quant : Quant
  deriving DecidableEq

/-- A vector of one byte for each dimension: `lo + step * code`. -/
structure Sq8 where
  codes : List UInt8
  lo : F32
  step : F32
  sum : UInt32
  deriving DecidableEq

inductive Stored
  | full (v : List F32)
  | sq8 (s : Sq8)
  deriving DecidableEq

/-- What a search compares the nodes with. -/
structure Probe where
  q : List F32
  norm : F32
  sum : F32

structure Node where
  key : String
  vector : Stored
  norm : F32
  /-- The neighbours on each layer the node belongs to, bottom first. -/
  links : List (List Nat)
  deleted : Bool
  deriving DecidableEq

/-- A node and its distance to what is searched. -/
structure Near where
  dist : F32
  id : Nat
  deriving DecidableEq

/-- The nodes seen by the search in progress: a mark for each node, that of the search's epoch. -/
structure Visits where
  marks : List UInt32
  epoch : UInt32
  deriving DecidableEq

structure Hnsw where
  params : Params
  nodes : List Node
  ids : ExtTreeMap String Nat compare
  entry : Nat
  maxLevel : Nat
  deleted : Nat
  rng : UInt64
  changes : Nat
  bytes : Nat
  visits : Visits

structure Found where
  keys : List String
  compared : Nat
  deriving DecidableEq

def maxLevelBound : Nat := 16

/-- No node. -/
def none32 : Nat := 2 ^ 32 - 1

namespace Near

def cmp (a b : Near) : Ordering := (a.dist.totalCmp b.dist).then (compare a.id b.id)

instance transCmp : Std.TransCmp cmp :=
  inferInstanceAs (Std.TransCmp (compareLex (compareOn fun a : Near => a.dist.totalPlace) (compareOn fun a : Near => a.id)))

end Near

namespace Visits

def start (v : Visits) (nodes : Nat) : Visits :=
  let marks := if v.marks.length < nodes then v.marks ++ List.replicate (nodes - v.marks.length) 0 else v.marks
  let epoch := v.epoch + 1
  if epoch = 0 then ⟨List.replicate marks.length 0, 1⟩ else ⟨marks, epoch⟩

/-- True the first time `id` is seen in this search. -/
def first (v : Visits) (id : Nat) : Option (Bool × Visits) := do
  let m ← v.marks[id]?
  return (m != v.epoch, { v with marks := v.marks.set id v.epoch })

end Visits

section

variable [Floats]

open Floats

/-- The chunks of eight numbers and what is left. -/
def asChunks (v : List F32) : List (List F32) × List F32 :=
  ((List.range (v.length / 8)).map fun i => (v.drop (8 * i)).take 8, v.drop (8 * (v.length / 8)))

def dot (a b : List F32) : F32 :=
  let tail := sum (List.zipWith mul (asChunks a).2 (asChunks b).2)
  let acc := (List.zip (asChunks a).1 (asChunks b).1).foldl
    (fun acc p => List.zipWith add acc (List.zipWith mul p.1 p.2)) (List.replicate 8 F32.zero)
  add (sum acc) tail

def square (x : F32) : F32 := mul x x

def l2Squared (a b : List F32) : F32 :=
  let tail := sum (List.zipWith (fun x y => square (sub x y)) (asChunks a).2 (asChunks b).2)
  let acc := (List.zip (asChunks a).1 (asChunks b).1).foldl
    (fun acc p => List.zipWith add acc (List.zipWith (fun x y => square (sub x y)) p.1 p.2)) (List.replicate 8 F32.zero)
  add (sum acc) tail

def norm (v : List F32) : F32 := sqrt (sum (v.map square))

namespace Sq8

def fromCodes (codes : List UInt8) (lo step : F32) : Sq8 :=
  ⟨codes, lo, step, codes.foldl (fun n c => n + UInt32.ofNat c.toNat) 0⟩

def encode (v : List F32) : Sq8 :=
  let lo := v.foldl Floats.min F32.infinity
  let hi := v.foldl Floats.max F32.negInfinity
  let step := if lo.lt hi then div (sub hi lo) (ofNat 255) else F32.zero
  fromCodes (v.map fun x => if F32.zero.lt step then code (div (sub x lo) step) else 0) lo step

def decode (s : Sq8) : List F32 := s.codes.map fun c => add s.lo (mul s.step (ofNat c.toNat))

/-- The dot product with a full vector whose sum is `qsum`. -/
def dotFull (s : Sq8) (q : List F32) (qsum : F32) : F32 :=
  let qc := Floats.sum (List.zipWith (fun x c => mul x (ofNat (UInt8.toNat c))) q s.codes)
  add (mul s.lo qsum) (mul s.step qc)

def dot (s o : Sq8) : F32 :=
  let cc := (List.zipWith (fun a b : UInt8 => UInt32.ofNat a.toNat * UInt32.ofNat b.toNat) s.codes o.codes).foldl (· + ·) 0
  let n := ofNat s.codes.length
  add (add (add (mul (mul n s.lo) o.lo) (mul (mul s.lo o.step) (ofNat o.sum.toNat)))
    (mul (mul o.lo s.step) (ofNat s.sum.toNat))) (mul (mul s.step o.step) (ofNat cc.toNat))

end Sq8

namespace Stored

def new (v : List F32) : Quant → Stored
  | .none => .full v
  | .sq8 => .sq8 (Sq8.encode v)

def dims : Stored → Nat
  | .full v => v.length
  | .sq8 s => s.codes.length

def vector : Stored → List F32
  | .full v => v
  | .sq8 s => s.decode

end Stored

/-- A graph distance from a dot product and the two norms. -/
def fromDot (metric : Metric) (dot an bn : F32) : F32 :=
  match metric with
  | .cosine =>
      let d := mul an bn
      if d.same F32.zero then F32.one else sub F32.one (div dot d)
  | .dot => dot.neg
  | .l2 => Floats.max (sub (add (mul an an) (mul bn bn)) (mul (ofNat 2) dot)) F32.zero

def distance (metric : Metric) (a : List F32) (an : F32) (b : List F32) (bn : F32) : F32 :=
  match metric with
  | .cosine =>
      let d := mul an bn
      if d.same F32.zero then F32.one else sub F32.one (div (dot a b) d)
  | .dot => (dot a b).neg
  | .l2 => l2Squared a b

namespace Probe

def new (q : List F32) : Probe := ⟨q, Vector.norm q, Floats.sum q⟩

end Probe

namespace Params

def maxLinks (p : Params) (level : Nat) : Nat := if level = 0 then p.m * 2 else p.m

/-- What a node of `levels` layers and its entry in the key map cost. -/
def nodeBytes (p : Params) (key dims levels : Nat) : Nat :=
  let links := ((List.range levels).map fun l => p.maxLinks l * 4 + 24).sum
  let vector := match p.quant with
    | .none => dims * 4
    | .sq8 => dims + 12
  key + vector + links + 80 + key + 40

end Params

namespace Hnsw

def new (params : Params) : Hnsw :=
  ⟨params, [], ∅, none32, 0, 0, 0x9E3779B97F4A7C15, 0, 0, ⟨[], 0⟩⟩

def len (g : Hnsw) : Nat := g.ids.size

def needsRebuild (g : Hnsw) : Bool := 64 ≤ g.deleted && g.nodes.length ≤ g.deleted * 3

def clear (g : Hnsw) : Hnsw := { new g.params with rng := g.rng, changes := 1 }

/-- The vector stored for a key, with its norm. -/
def get (g : Hnsw) (key : String) : Option (Option (List F32 × F32)) :=
  match g.ids[key]? with
  | none => some none
  | some id => do
      let n ← g.nodes[id]?
      return some (n.vector.vector, n.norm)

/-- Whether the key holds what the vector would be stored as. -/
def same (g : Hnsw) (key : String) (vector : List F32) : Option Bool :=
  match g.ids[key]? with
  | none => some false
  | some id => do
      let n ← g.nodes[id]?
      match n.vector with
      | .full v => return v.length == vector.length && (List.zipWith F32.same v vector).all fun same => same
      | .sq8 s =>
          let q := Sq8.encode vector
          return q.codes == s.codes && q.lo.same s.lo && q.step.same s.step

/-- The live nodes. -/
def live (g : Hnsw) : List Node := g.nodes.filter fun n => !n.deleted

def iter (g : Hnsw) : List (String × List F32 × F32) := g.live.map fun n => (n.key, n.vector.vector, n.norm)

def keyLen (key : String) : Nat := (asBytes key).length

/-- The node stays as a tombstone until the graph is rebuilt. -/
def remove (g : Hnsw) (key : String) : Option Hnsw :=
  match g.ids[key]? with
  | none => some g
  | some id => do
      let n ← g.nodes[id]?
      return { g with
        ids := g.ids.erase key
        bytes := g.bytes - (keyLen key + 40)
        nodes := g.nodes.set id { n with deleted := true }
        deleted := g.deleted + 1
        changes := g.changes + 1 }

def distTo (g : Hnsw) (p : Probe) (id : Nat) : Option F32 := do
  let n ← g.nodes[id]?
  match n.vector with
  | .full v => return distance g.params.metric p.q p.norm v n.norm
  | .sq8 s => return fromDot g.params.metric (s.dotFull p.q p.sum) p.norm n.norm

def distNodes (g : Hnsw) (a b : Nat) : Option F32 := do
  let na ← g.nodes[a]?
  let nb ← g.nodes[b]?
  match na.vector, nb.vector with
  | .full x, .full y => return distance g.params.metric x na.norm y nb.norm
  | .sq8 x, .sq8 y => return fromDot g.params.metric (x.dot y) na.norm nb.norm
  | x, y => return distance g.params.metric x.vector na.norm y.vector nb.norm

def shifted (rng : UInt64) : UInt64 :=
  let rng := rng ^^^ (rng <<< 13)
  let rng := rng ^^^ (rng >>> 7)
  rng ^^^ (rng <<< 17)

/-- A layer drawn so that each one holds about `1/m` of the one below. -/
def randomLevel (g : Hnsw) : Nat × Hnsw :=
  let rng := shifted g.rng
  (Nat.min (layer (rng >>> 11).toNat (Nat.max g.params.m 2)) maxLevelBound, { g with rng })

/-- The links of a node on a layer. -/
def linksAt (g : Hnsw) (level id : Nat) : Option (List Nat) := do
  let n ← g.nodes[id]?
  n.links[level]?

/-- Compares the links of a node with what is closest so far, and says whether one is closer. -/
def pass (dist : Nat → Option F32) (ns : List Nat) (cur : Near) (count : Nat) : Option (Near × Bool × Nat) :=
  ns.foldlM (fun (cur, moved, count) n => do
    let d ← dist n
    return if d.lt cur.dist then (⟨d, n⟩, true, count + 1) else (cur, moved, count + 1)) (cur, false, count)

def greedyLoop (links : Nat → Option (List Nat)) (dist : Nat → Option F32) : Nat → Near → Nat → Option (Near × Nat)
  | 0, _, _ => none
  | fuel + 1, cur, count => do
      let ns ← links cur.id
      let (cur, moved, count) ← pass dist ns cur count
      if moved then greedyLoop links dist fuel cur count else return (cur, count)

/-- Moves to the closest neighbour on a layer until none is closer. -/
def greedy (g : Hnsw) (cur : Near) (level : Nat) (dist : Nat → Option F32) (count : Nat) : Option (Near × Nat) :=
  greedyLoop (g.linksAt level) dist (g.nodes.length + 1) cur count

/-- The search of a layer in progress. -/
structure Looking where
  visits : Visits
  candidates : List Near
  best : List Near
  count : Nat

/-- Heaps that keep the closest on top. -/
def reverse (a b : Near) : Ordering := Near.cmp b a

def welcome (ef : Nat) (best : List Near) (d : F32) : Bool :=
  best.length < ef || (peek best).any fun w => d.lt w.dist

def look (dist : Nat → Option F32) (allow : Nat → Option Bool) (ef : Nat) (s : Looking) (n : Nat) : Option Looking := do
  let (first, visits) ← s.visits.first n
  let s := { s with visits }
  if !first then return s
  let d ← dist n
  -- a hidden node is neither a result nor a way through
  if d.same F32.infinity then return s
  let s := { s with count := s.count + 1 }
  if welcome ef s.best d then
    let near : Near := ⟨d, n⟩
    let s := { s with candidates := push reverse near s.candidates }
    if ← allow n then
      let best := push Near.cmp near s.best
      return { s with best := if ef < best.length then pop best else best }
    else return s
  else return s

def layerLoop (links : Nat → Option (List Nat)) (ef : Nat) (dist : Nat → Option F32) (allow : Nat → Option Bool) :
    Nat → Looking → Option Looking
  | 0, _ => none
  | fuel + 1, s =>
      match s.candidates with
      | [] => some s
      | c :: candidates =>
          let s := { s with candidates }
          if ef ≤ s.best.length && (peek s.best).any fun w => w.dist.lt c.dist then some s
          else do
            let ns ← links c.id
            let s ← ns.foldlM (look dist allow ef) s
            layerLoop links ef dist allow fuel s

/-- The nodes a search begins with that are let through. -/
def allowed (allow : Nat → Option Bool) : List Near → Option (List Near)
  | [] => some []
  | n :: ns => do
      let ok ← allow n.id
      let rest ← allowed allow ns
      return if ok then n :: rest else rest

/-- The `ef` closest nodes on a layer that `allow` lets through, closest first. -/
def searchLayerWith (g : Hnsw) (entry : List Near) (ef level : Nat) (dist : Nat → Option F32) (allow : Nat → Option Bool)
    (count : Nat) : Option (List Near × Nat × Visits) := do
  let visits ← entry.foldlM (fun (v : Visits) n => (v.first n.id).map Prod.snd) (g.visits.start g.nodes.length)
  let best ← allowed allow entry
  let s ← layerLoop (g.linksAt level) ef dist allow (g.nodes.length + entry.length + 1)
    ⟨visits, entry.foldl (fun h n => push reverse n h) [], best.foldl (fun h n => push Near.cmp n h) [], count⟩
  return (s.best.reverse, s.count, s.visits)

def searchLayer (g : Hnsw) (entry : List Near) (ef level : Nat) (dist : Nat → Option F32) (count : Nat) :
    Option (List Near × Nat × Visits) :=
  g.searchLayerWith entry ef level dist (fun _ => some true) count

/-- Whether a candidate is further from all that is kept than from the node it is for. -/
def apart (g : Hnsw) (c : Near) : List Near → Option Bool
  | [] => some true
  | k :: kept => do
      let d ← g.distNodes c.id k.id
      if c.dist.lt d then g.apart c kept else return false

def choose (g : Hnsw) (m : Nat) : List Near → List Near → List Near → Option (List Near × List Near)
  | [], kept, skipped => some (kept, skipped)
  | c :: cs, kept, skipped =>
      if m ≤ kept.length then some (kept, skipped)
      else do
        if ← g.apart c kept then g.choose m cs (kept ++ [c]) skipped else g.choose m cs kept (skipped ++ [c])

/-- Keeps up to `m` candidates, those first that are not closer to one kept than to the node. -/
def select (g : Hnsw) (candidates : List Near) (m : Nat) : Option (List Nat) := do
  let (kept, skipped) ← g.choose m candidates [] []
  return (kept ++ skipped.take (m - kept.length)).map Near.id

/-- Puts the links of a node on a layer. -/
def setLinks (g : Hnsw) (id level : Nat) (ns : List Nat) : Option Hnsw := do
  let n ← g.nodes[id]?
  if level < n.links.length then return { g with nodes := g.nodes.set id { n with links := n.links.set level ns } }
  else none

/-- Adds a link, and prunes the links of a node that is full. -/
def link (g : Hnsw) (level to_ from_ : Nat) : Option Hnsw := do
  let links ← g.linksAt level from_
  if links.contains to_ then return g
  let g ← g.setLinks from_ level (links ++ [to_])
  if links.length + 1 ≤ g.params.maxLinks level then return g
  let near ← (links ++ [to_]).mapM fun n => (g.distNodes from_ n).map fun d => (⟨d, n⟩ : Near)
  let kept ← g.select (sorted Near.cmp near) (g.params.maxLinks level)
  g.setLinks from_ level kept

/-- Links a new node on one layer; the search of the layer below begins with what is found. -/
def connect (id : Nat) (s : Hnsw × List Near × Nat) (level : Nat) : Option (Hnsw × List Near × Nat) := do
  let (g, entry, count) := s
  let (found, count, visits) ← g.searchLayer entry g.params.efConstruction level (g.distNodes id) count
  let g := { g with visits }
  let neighbours ← g.select found g.params.m
  let g ← neighbours.foldlM (Hnsw.link · level id ·) g
  let g ← g.setLinks id level neighbours
  return (g, found, count)

/-- Walks down the layers from `top` to just above `bottom`. -/
def descend (g : Hnsw) (dist : Nat → Option F32) (bottom : Nat) (cur : Near) (count : Nat) : Option (Near × Nat) :=
  (List.range' (bottom + 1) (g.maxLevel - bottom)).reverse.foldlM (fun (cur, count) l => g.greedy cur l dist count) (cur, count)

/-- Links a new node on its layers. -/
def attach (g : Hnsw) (id level : Nat) : Option Hnsw := do
  if g.entry = none32 then return { g with entry := id, maxLevel := level }
  let d ← g.distNodes id g.entry
  let (cur, count) ← g.descend (g.distNodes id) level ⟨d, g.entry⟩ 0
  let (g, _, _) ← (List.range (Nat.min level g.maxLevel + 1)).reverse.foldlM (connect id) (g, [cur], count)
  return if g.maxLevel < level then { g with maxLevel := level, entry := id } else g

/-- Adds or replaces the vector of a key. -/
def insert (g : Hnsw) (key : String) (vector : List F32) : Option Hnsw := do
  let g ← g.remove key
  let (level, g) := g.randomLevel
  let id := g.nodes.length % 2 ^ 32
  let stored := Stored.new vector g.params.quant
  let fresh : Node := ⟨key, stored, norm stored.vector, List.replicate (level + 1) [], false⟩
  let g := { g with
    bytes := g.bytes + g.params.nodeBytes (keyLen key) vector.length (level + 1)
    nodes := g.nodes ++ [fresh]
    ids := g.ids.insert key id
    changes := g.changes + 1 }
  g.attach id level

/-- Builds the graph again from the live vectors. -/
def rebuild (g : Hnsw) : Option Hnsw := do
  let g' ← g.live.foldlM (fun (h : Hnsw) n => h.insert n.key n.vector.vector) { new g.params with rng := g.rng }
  return { g' with changes := Nat.max g'.changes 1 }

/-- The distance to what is searched; a hidden node is infinitely far. -/
def away (g : Hnsw) (p : Probe) (hidden : Option Nat) (id : Nat) : Option F32 :=
  if some id = hidden then some F32.infinity else g.distTo p id

/-- The answers among what is found, closest first. -/
def answers (g : Hnsw) (accept : String → Bool) (k : Nat) (hidden : Option Nat) (found : List Near) : Option (List String) := do
  let nodes ← (found.filter fun n => some n.id ≠ hidden).mapM fun n => g.nodes[n.id]?
  return ((nodes.filter fun n => !n.deleted && accept n.key).take k).map Node.key

/-- Widens the search until enough is found or the whole graph is explored. -/
def widen (g : Hnsw) (p : Probe) (k : Nat) (accept : String → Bool) (hidden : Option Nat) (cur : Near) :
    Nat → Nat → Nat → Visits → Option (Found × Visits)
  | 0, _, _, _ => none
  | fuel + 1, ef, compared, visits => do
      let (found, compared, visits) ← Hnsw.searchLayer { g with visits } [cur] ef 0 (g.away p hidden) compared
      let keys ← g.answers accept k hidden found
      if k ≤ keys.length || g.nodes.length ≤ ef then return (⟨keys, compared⟩, visits)
      else g.widen p k accept hidden cur fuel (Nat.min (ef * 2) g.nodes.length) compared visits

/-- The node that a search does not step on. -/
def hiddenNode (g : Hnsw) (hidden : Option String) : Option Nat :=
  (hidden.bind fun k => g.ids[k]?).filter fun h => h ≠ g.entry

def searchHiding (g : Hnsw) (query : List F32) (k ef : Nat) (accept : String → Bool) (hidden : Option String) :
    Option (Found × Visits) :=
  if g.entry = none32 || k = 0 then some (⟨[], 0⟩, g.visits)
  else do
    let p := Probe.new query
    let hidden := g.hiddenNode hidden
    let d ← g.away p hidden g.entry
    let (cur, compared) ← g.descend (g.away p hidden) 0 ⟨d, g.entry⟩ 1
    g.widen p k accept hidden cur (g.nodes.length + 1) (Nat.max ef k) compared g.visits

/-- The keys closest to a query among those `accept` lets through. -/
def search (g : Hnsw) (query : List F32) (k ef : Nat) (accept : String → Bool) : Option (Found × Visits) :=
  g.searchHiding query k ef accept none

/-- The same with `accept` asked while the bottom layer is explored. -/
def searchFiltered (g : Hnsw) (query : List F32) (k ef : Nat) (accept : String → Bool) : Option (Found × Visits) :=
  if g.entry = none32 || k = 0 then some (⟨[], 0⟩, g.visits)
  else do
    let p := Probe.new query
    let d ← g.distTo p g.entry
    let (cur, compared) ← g.descend (g.distTo p) 0 ⟨d, g.entry⟩ 1
    let allow (id : Nat) : Option Bool := (g.nodes[id]?).map fun n => !n.deleted && accept n.key
    let (found, compared, visits) ← g.searchLayerWith [cur] (Nat.max ef k) 0 (g.distTo p) allow compared
    let keys ← (found.take k).mapM fun n => (g.nodes[n.id]?).map Node.key
    return (⟨keys, compared⟩, visits)

end Hnsw

end

end KivaDb.Vector
