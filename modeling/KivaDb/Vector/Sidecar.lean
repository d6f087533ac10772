import KivaDb.Crypt
import KivaDb.Vector.Index

namespace KivaDb.Vector

open Lib.LittleEndian Lib.Utf8 Lib.Framing Crypt

def graphsMagic : Bytes := asBytes "KVGRAPH1"

/-- What an encrypted graphs file starts with. -/
def graphsSealed : Bytes := asBytes "KVGRAPE1"

/-- A graph read back from the graphs file. -/
structure SavedGraph where
  pattern : String
  field : String
  dims : Option Nat
  rejected : Nat
  graph : Hnsw

section

variable [Floats]

def writeIndex (i : VecIndex) (g : Hnsw) : Bytes :=
  writeStr i.pattern ++ (writeStr i.field ++ (putU32 (i.dims.getD 0) ++ (le64 (UInt64.ofNat i.rejected) ++ g.write)))

/-- The indexes whose graphs are saved. -/
def graphs (vecs : List VecIndex) : List (VecIndex × Hnsw) := vecs.filterMap fun i => i.graph.map fun g => (i, g)

variable [External]

/-- The graphs file in clear, with its checksum. -/
def graphsFile (fileId fileLen : UInt64) (vecs : List VecIndex) : Bytes :=
  let out := graphsMagic ++ (le64 fileId ++ (le64 fileLen ++ (putU32 (graphs vecs).length ++
    (graphs vecs).flatMap fun p => writeIndex p.1 p.2)))
  out ++ le32 (External.crc32 out)

/-- The bytes of the graphs file, if one is written. -/
def saveGraphs (keys : Option Keys) (nonce : Draw) (fileId fileLen : UInt64) (vecs : List VecIndex) : Option Bytes :=
  if (graphs vecs).isEmpty then none
  else
    match keys with
    | none => some (graphsFile fileId fileLen vecs)
    | some keys =>
        -- never written in clear: without a nonce the graphs are not saved
        match keys.seal .graphs (le64 fileId) nonce (graphsFile fileId fileLen vecs) with
        | .error _ => none
        | .ok out => some (graphsSealed ++ out)

def readSaved : Cursor UInt8 SavedGraph := do
  let pattern ← text
  let field ← text
  let dims ← u32
  let rejected ← u64
  let graph ← Hnsw.read
  return ⟨pattern, field, if dims = 0 then none else some dims.toNat, rejected.toNat, graph⟩

def readBody (fileId fileLen : UInt64) : Cursor UInt8 (UInt64 × List SavedGraph) := do
  let magic ← take 8
  if magic ≠ graphsMagic then failure
  let id ← u64
  if id ≠ fileId then failure
  let since ← u64
  if fileLen < since then failure
  let count ← u32
  let list ← times readSaved count.toNat
  return (since, list)

/-- The plain graphs file. -/
def openGraphs (keys : Option Keys) (fileId : UInt64) (buf : Bytes) : Option Bytes :=
  if graphsSealed.isPrefixOf buf then (openWith keys .graphs (le64 fileId) (buf.drop graphsSealed.length)).toOption
  else some buf

/-- The graphs of this data file, and the byte of its log they reflect. -/
def readGraphs (keys : Option Keys) (fileId fileLen : UInt64) (buf : Bytes) : Option (UInt64 × List SavedGraph) := do
  let buf ← openGraphs keys fileId buf
  if buf.length < 4 then none
  else
    let body := buf.take (buf.length - 4)
    if le32 (External.crc32 body) ≠ buf.drop (buf.length - 4) then none
    else (readBody fileId fileLen body).map Prod.fst

/-- What is saved of an index. -/
def saved (p : VecIndex × Hnsw) : SavedGraph :=
  ⟨p.1.pattern, p.1.field, p.1.dims, p.1.rejected, { p.2 with changes := 0, visits := ⟨[], 0⟩ }⟩

/-- An index whose sizes fit in their fields. -/
structure Fits (i : VecIndex) (g : Hnsw) : Prop where
  pattern : (asBytes i.pattern).length < 2 ^ 32
  field : (asBytes i.field).length < 2 ^ 32
  rejected : i.rejected < 2 ^ 64
  m : g.params.m < 2 ^ 32
  ef : g.params.efConstruction < 2 ^ 32
  keys : ∀ n ∈ g.nodes, Hnsw.keyLen n.key < 2 ^ 32

variable {b : Bytes}

section

omit [External]

variable {i : VecIndex} {g : Hnsw} {w : View}

omit [Floats] in
theorem mem_graphs {vecs : List VecIndex} {p : VecIndex × Hnsw} (h : p ∈ graphs vecs) : p.1 ∈ vecs ∧ p.1.store = .graph p.2 := by
  obtain ⟨i, hi, hp⟩ := List.mem_filterMap.mp h
  obtain ⟨g, hg, rfl⟩ := Option.map_eq_some_iff.mp hp
  refine ⟨hi, ?_⟩
  rw [VecIndex.graph] at hg
  split at hg
  · next hstore =>
    cases hg
    exact hstore
  · cases hg

theorem linking_of_shows (h : i.Shows w) (hg : i.store = .graph g) : i.Linking g w.vectors := by
  rcases h.store with ⟨m, hm⟩ | ⟨g', hg'⟩
  · rw [hm.store] at hg
    cases hg
  · have hstore := hg'.store
    rw [hg] at hstore
    cases hstore
    exact hg'

theorem writable (h : i.Shows w) (hg : i.store = .graph g) (hf : Fits i g) : g.Writable := by
  have hl := linking_of_shows h hg
  refine ⟨hf.m, hf.ef, hf.keys, fun n hn => ⟨(hl.holds n hn).1, ?_⟩, fun n hn m hm => ?_⟩
  · have hle := (h.bound _ (hl.holds n hn).2).2
    unfold maxDims at hle
    omega
  · exact Option.some.inj ((hl.holds n hn).2.symm.trans (hl.holds m hm).2)

theorem consumes_saved (h : i.Shows w) (hg : i.store = .graph g) (hf : Fits i g) :
    Consumes readSaved (writeIndex i g) (saved (i, g)) := by
  have hread := Hnsw.read_write (linking_of_shows h hg).formed (writable h hg hf)
  refine (consumes_text hf.pattern).bind ((consumes_text hf.field).bind ((consumes_u32 _).bind ((consumes_u64 _).bind
    (hread.last ?_))))
  have hdims : (if UInt32.ofNat (i.dims.getD 0) = 0 then none else some (UInt32.ofNat (i.dims.getD 0)).toNat) = i.dims := by
    cases hd : i.dims with
    | none => rfl
    | some d =>
        obtain ⟨hpos, hle⟩ := h.bound d hd
        have hnat : (UInt32.ofNat d).toNat = d := toNat_small (hle.trans_lt (by decide))
        have hne : UInt32.ofNat d ≠ 0 := by
          intro heq
          rw [heq] at hnat
          exact hpos.ne hnat
        rw [Option.getD_some, if_neg hne, hnat]
  have hrejected : (UInt64.ofNat i.rejected).toNat = i.rejected := UInt64.toNat_ofNat_of_lt hf.rejected
  rw [hdims, hrejected]
  exact Consumes.pure _

theorem consumes_body (fileId : UInt64) {fileLen fileLen' : UInt64} {vecs : List VecIndex} (hlen : ¬ fileLen' < fileLen)
    (hcount : vecs.length < 2 ^ 32) (hall : ∀ p ∈ graphs vecs, Consumes readSaved (writeIndex p.1 p.2) (saved p)) :
    Consumes (readBody fileId fileLen') (graphsMagic ++ (le64 fileId ++ (le64 fileLen ++ (putU32 (graphs vecs).length ++
      (graphs vecs).flatMap fun p => writeIndex p.1 p.2)))) (fileLen, (graphs vecs).map saved) := by
  have hsmall : (graphs vecs).length < 2 ^ 32 := (List.length_filterMap_le _ _).trans_lt hcount
  refine (Consumes.take_of (by decide)).bind ?_
  rw [if_neg (not_not.mpr rfl)]
  refine (consumes_u64 fileId).bind ?_
  rw [if_neg (not_not.mpr rfl)]
  refine (consumes_u64 fileLen).bind ?_
  rw [if_neg hlen]
  refine (consumes_u32 _).bind ?_
  rw [toNat_small hsmall]
  exact (Consumes.times_map hall).last (Consumes.pure _)

end

omit [Floats] in
theorem crc_split (out : Bytes) : (out ++ le32 (External.crc32 out)).take ((out ++ le32 (External.crc32 out)).length - 4) = out ∧
    (out ++ le32 (External.crc32 out)).drop ((out ++ le32 (External.crc32 out)).length - 4) = le32 (External.crc32 out) := by
  rw [List.length_append, length_le32, Nat.add_sub_cancel]
  exact ⟨List.take_left, List.drop_left⟩

/-- What is read of a file in clear. -/
theorem readGraphs_eq {keys : Option Keys} {fileId fileLen : UInt64} {out : Bytes}
    (hopen : openGraphs keys fileId b = some (out ++ le32 (External.crc32 out))) :
    readGraphs keys fileId fileLen b = (readBody fileId fileLen out).map Prod.fst := by
  obtain ⟨htake, hdrop⟩ := crc_split out
  have hlen : ¬ (out ++ le32 (External.crc32 out)).length < 4 := by
    rw [List.length_append, length_le32]
    omega
  rw [readGraphs, hopen, Option.bind_eq_bind, Option.bind_some, if_neg hlen]
  simp only [htake, hdrop, ne_eq, not_true, if_false]

omit [Floats] in
theorem openGraphs_clear (ks : Option Keys) (id fileId fileLen : UInt64) (vecs : List VecIndex) :
    openGraphs ks id (graphsFile fileId fileLen vecs) = some (graphsFile fileId fileLen vecs) := by
  have hplain : ¬ graphsSealed.isPrefixOf (graphsFile fileId fileLen vecs) = true := by
    rw [List.isPrefixOf_iff_prefix]
    intro hprefix
    have hsealed := List.prefix_iff_eq_take.mp hprefix
    have hlen : graphsSealed.length = graphsMagic.length := by decide
    rw [graphsFile, List.append_assoc, hlen, List.take_left] at hsealed
    exact absurd hsealed (by decide)
  rw [openGraphs, if_neg hplain]

omit [Floats] in
theorem openGraphs_saved {keys ks : Option Keys} {nonce : Draw} {fileId fileLen : UInt64} {vecs : List VecIndex}
    (hsave : saveGraphs keys nonce fileId fileLen vecs = some b) (hopen : CanOpen ks keys) :
    openGraphs ks fileId b = some (graphsFile fileId fileLen vecs) := by
  unfold saveGraphs at hsave
  split at hsave
  · cases hsave
  · cases keys with
    | none =>
        obtain rfl := Option.some.inj hsave
        exact openGraphs_clear ks fileId fileId fileLen vecs
    | some keys =>
        obtain ⟨o, rfl, hfind⟩ := hopen keys rfl
        dsimp only at hsave
        cases hseal : keys.seal .graphs (le64 fileId) nonce (graphsFile fileId fileLen vecs) with
        | error why =>
            rw [hseal] at hsave
            cases hsave
        | ok out =>
            rw [hseal] at hsave
            obtain rfl := Option.some.inj hsave
            have hsealed : graphsSealed.isPrefixOf (graphsSealed ++ out) = true :=
              List.isPrefixOf_iff_prefix.mpr (List.prefix_append _ _)
            rw [openGraphs, if_pos hsealed, List.drop_left, openWith_seal hfind hseal]
            rfl

/-- What was saved is what the file reads as. -/
theorem readGraphs_saved {keys ks : Option Keys} {nonce : Draw} {fileId fileLen fileLen' : UInt64} {vecs : List VecIndex}
    (hsave : saveGraphs keys nonce fileId fileLen vecs = some b) (hopen : CanOpen ks keys) (hlen : ¬ fileLen' < fileLen)
    (hcount : vecs.length < 2 ^ 32) (hshows : ∀ i ∈ vecs, ∃ w, i.Shows w) (hfits : ∀ i ∈ vecs, ∀ g, i.store = .graph g → Fits i g) :
    readGraphs ks fileId fileLen' b = some (fileLen, (graphs vecs).map saved) := by
  have hbody := consumes_body fileId hlen hcount fun p hp => by
    obtain ⟨hi, hstore⟩ := mem_graphs hp
    obtain ⟨w, hw⟩ := hshows p.1 hi
    exact consumes_saved hw hstore (hfits p.1 hi p.2 hstore)
  have hread := hbody []
  rw [List.append_nil] at hread
  rw [readGraphs_eq (openGraphs_saved hsave hopen), hread]
  rfl

/-- What was saved is read back by whoever has the keys, for the same data file, once its log reaches as far. -/
theorem read_saved {keys ks : Option Keys} {nonce : Draw} {fileId fileLen fileLen' : UInt64} {vecs : List VecIndex}
    (hsave : saveGraphs keys nonce fileId fileLen vecs = some b) (hopen : CanOpen ks keys) (hlen : ¬ fileLen' < fileLen)
    (hcount : vecs.length < 2 ^ 32) (hshows : ∀ i ∈ vecs, ∃ w, i.Shows w) (hfits : ∀ i ∈ vecs, ∀ g, i.store = .graph g → Fits i g) :
    readGraphs ks fileId fileLen' b = some (fileLen, (graphs vecs).map saved) ∧
      ∀ i ∈ vecs, ∀ w g, i.Shows w → i.store = .graph g → ∃ s ∈ (graphs vecs).map saved,
        s.pattern = i.pattern ∧ s.field = i.field ∧ s.graph.params = g.params ∧
        ((VecIndex.withKind i.pattern i.field i.path i.kind).restore s.graph s.dims s.rejected).Shows { w with notVectors := 0 } := by
  refine ⟨readGraphs_saved hsave hopen hlen hcount hshows hfits, fun i hi w g hw hg => ?_⟩
  have hmem : (i, g) ∈ graphs vecs := by
    refine List.mem_filterMap.mpr ⟨i, hi, ?_⟩
    rw [VecIndex.graph, hg]
    rfl
  have hl := linking_of_shows hw hg
  have hformed : Hnsw.Formed { g with changes := 0, visits := ⟨[], 0⟩ } :=
    { hl.formed with old := fun m hm => absurd hm List.not_mem_nil }
  exact ⟨saved (i, g), List.mem_map_of_mem hmem, rfl, rfl, rfl, hw.dims, hw.rejected, rfl, hw.bound, hw.proper,
    .inr ⟨_, rfl, hformed, hl.holds, hl.shown⟩⟩

/-- Whatever file is accepted, its graphs can be searched and changed without failing. -/
theorem accepted_runs {keys : Option Keys} {fileId fileLen since : UInt64} {list : List SavedGraph}
    (h : readGraphs keys fileId fileLen b = some (since, list)) :
    ¬ fileLen < since ∧ ∀ s ∈ list, s.graph.Usable ∧
      ∀ ops : List Hnsw.Op, s.graph.nodes.length + (ops.map Hnsw.Op.nodes).sum ≤ none32 →
        ∃ g, ops.foldlM Hnsw.apply s.graph = some g ∧ g.Usable := by
  have hgives : Gives (readBody fileId fileLen) fun r => ¬ fileLen < r.1 ∧ ∀ s ∈ r.2, s.graph.Usable := by
    refine Gives.next fun magic => ?_
    split
    · exact Gives.failed
    · refine Gives.next fun id => ?_
      split
      · exact Gives.failed
      · refine Gives.next fun since => ?_
        split
        · exact Gives.failed
        · next hlen =>
          refine Gives.next fun count => ?_
          have hsaved : Gives readSaved fun s => s.graph.Usable :=
            Gives.next fun pattern => Gives.next fun field => Gives.next fun dims => Gives.next fun rejected =>
              Hnsw.gives_usable.bind fun g hg => Gives.pure hg
          exact (hsaved.times _).bind fun list hlist => Gives.pure ⟨hlen, hlist.2⟩
  rw [readGraphs] at h
  obtain ⟨buf, -, h⟩ := Option.bind_eq_some_iff.mp h
  split at h
  · cases h
  · dsimp only at h
    split at h
    · cases h
    · obtain ⟨⟨r, rest⟩, hr, heq⟩ := Option.map_eq_some_iff.mp h
      obtain ⟨hlen, hall⟩ := hgives _ r rest hr
      cases heq
      refine ⟨hlen, fun s hs => ⟨hall s hs, fun ops hsize => ?_⟩⟩
      obtain ⟨g, hrun, hu, -⟩ := Hnsw.run_kept (hall s hs) ops hsize
      exact ⟨g, hrun, hu⟩

end

section Samples

open Reference

attribute [local instance] Hnsw.unitFloats

/-- An index of one document. -/
def placed : Option VecIndex :=
  VecIndex.put { VecIndex.withKind "doc:*" "v" [.key "v"] (.hnsw Hnsw.plain) with dims := some 1 } "doc:1" [F32.one]

theorem placed_shows : ∃ i w g, placed = some i ∧ i.Shows w ∧ i.store = .graph g ∧ Fits i g := by
  have hone : Proper [F32.one] := ⟨fun x hx => by rw [List.mem_singleton.mp hx]; decide, by decide⟩
  obtain ⟨hnew, hzero⟩ := VecIndex.withKind_shows "doc:*" "v" [.key "v"] (.hnsw Hnsw.plain)
  obtain ⟨i, hput, hsame, h⟩ := hnew.put (by rw [hzero]; decide) "doc:1" hone rfl
  have hplaced : placed = some i := hput
  have hkeys : (placed.bind VecIndex.graph).any (fun g => g.nodes.all fun n => Hnsw.keyLen n.key < 100) = true := by decide
  have hkind : i.kind = .hnsw Hnsw.plain := hsame.kind
  rw [hplaced, Option.bind_some, VecIndex.graph] at hkeys
  rw [VecIndex.kind] at hkind
  cases hstore : i.store with
  | exact m =>
      rw [hstore] at hkind
      cases hkind
  | graph g =>
      rw [hstore] at hkind hkeys
      have hparams : g.params = Hnsw.plain := Kind.hnsw.inj hkind
      refine ⟨i, _, g, hplaced, h, hstore, ?_, ?_, ?_, ?_, ?_, fun n hn => ?_⟩
      · rw [hsame.pattern]
        decide
      · rw [hsame.field]
        decide
      · rw [h.rejected]
        decide
      · rw [hparams]
        decide
      · rw [hparams]
        decide
      · have hlt := of_decide_eq_true (List.all_eq_true.mp hkeys n hn)
        omega

theorem saved_one {i : VecIndex} {g : Hnsw} (h : i.store = .graph g) :
    saveGraphs none (.error "") 7 100 [i] = some (graphsFile 7 100 [i]) := by
  unfold saveGraphs graphs VecIndex.graph
  rw [List.filterMap_cons, h]
  rfl

theorem one_fits {i : VecIndex} {w : View} {g : Hnsw} (h : i.Shows w) (hstore : i.store = .graph g) (hfits : Fits i g) :
    (∀ j ∈ [i], ∃ w, j.Shows w) ∧ ∀ j ∈ [i], ∀ g, j.store = .graph g → Fits j g := by
  refine ⟨fun j hj => ?_, fun j hj g' hg' => ?_⟩
  · rw [List.mem_singleton.mp hj]
    exact ⟨w, h⟩
  · rw [List.mem_singleton.mp hj] at hg' ⊢
    rw [hstore] at hg'
    cases hg'
    exact hfits

theorem read_saved_one : ∃ i b, placed = some i ∧ saveGraphs none (.error "") 7 100 [i] = some b ∧
    readGraphs none 7 200 b = some (100, (graphs [i]).map saved) := by
  obtain ⟨i, w, g, hplaced, h, hstore, hfits⟩ := placed_shows
  obtain ⟨hshows, hall⟩ := one_fits h hstore hfits
  exact ⟨i, _, hplaced, saved_one hstore,
    (read_saved (saved_one hstore) (canOpen_self none) (by decide) (by simp) hshows hall).1⟩

theorem accepted_runs_one : ∃ s b g, readGraphs none 7 200 b = some (100, [s]) ∧ s.graph.Usable ∧
    [Hnsw.Op.remove "doc:1", .rebuild].foldlM Hnsw.apply s.graph = some g ∧ g.Usable := by
  obtain ⟨i, w, g, -, h, hstore, hfits⟩ := placed_shows
  obtain ⟨hshows, hall⟩ := one_fits h hstore hfits
  have hread := readGraphs_saved (saved_one hstore) (canOpen_self none) (by decide : ¬ (200 : UInt64) < 100) (by simp) hshows hall
  have hgraphs : graphs [i] = [(i, g)] := by
    unfold graphs VecIndex.graph
    rw [List.filterMap_cons, hstore]
    rfl
  rw [hgraphs] at hread
  obtain ⟨-, hruns⟩ := accepted_runs hread
  obtain ⟨husable, hops⟩ := hruns _ List.mem_cons_self
  obtain ⟨g', hrun, hu⟩ := hops [.remove "doc:1", .rebuild] husable.size
  exact ⟨_, _, g', hread, husable, hrun, hu⟩

end Samples

end KivaDb.Vector
