import KivaDb.Engine.Libraries
import KivaDb.Front.Reference
import KivaDb.Integers
import KivaDb.Resp.Collections
import KivaDb.Streams.Held

namespace KivaDb

open Lib.LittleEndian

namespace Json

/-- The item at `i` of an array. -/
def at_ (i : Nat) : Json → Json
  | array items => items.getD i .null
  | _ => .null

def items : Json → List Json
  | array items => items
  | _ => []

end Json

namespace Streams

def Id.toJson (id : Id) : Json := .string (String.ofList id.text)

def idOf (j : Json) : Id := (j.asString.bind fun s => Id.parse s.toList).getD .zero

def ofNat64 (n : UInt64) : Json := .number (.posInt n)

/-- A number of milliseconds, negative or not. -/
def ofInt64 (i : Int64) : Json := .number (if i < 0 then .negInt i else .posInt i.toUInt64)

def Group.toJson (g : Group) : Json :=
  .object [("last", g.last.toJson), ("read", (g.read.map ofNat64).getD .null),
    ("pending", .array (g.pending.toList.map fun (id, p) =>
      .array [id.toJson, .string p.consumer, ofInt64 p.delivered, ofNat64 p.count])),
    ("consumers", .object (g.consumers.toList.map fun (name, c) =>
      (name, .object [("seen", ofInt64 c.seen), ("active", ofInt64 c.active)])))]

/-- The document a stream is kept in. -/
def Stream.toJson (s : Stream) : Json :=
  .object [("redis", .string "stream"), ("last", s.last.toJson), ("added", ofNat64 s.added),
    ("max_deleted", s.maxDeleted.toJson),
    ("entries", .array (s.entries.toList.map fun (id, fields) => .array [id.toJson, .array (fields.map .string)])),
    ("groups", .object (s.groups.toList.map fun (name, g) => (name, g.toJson)))]

/-- How many entries a document is read as. -/
def entryCount (j : Json) : Nat := (((j.get? "entries").getD .null).items.map fun e => idOf (e.at_ 0)).dedup.length

theorem parseU64_toDigits (n : UInt64) : Id.parseU64 (Nat.toDigits 10 n.toNat) = some n := by
  rw [Id.parseU64, Num.readU64_toDigits n.toNat_lt, Option.map_some, UInt64.ofNat_toNat]

theorem parse_text (id : Id) : Id.parse id.text = some id := by
  have hminus : ∀ c ∈ Nat.toDigits 10 id.ms.toNat, decide (c ≠ '-') = true := by
    intro c hc
    rw [decide_eq_true_eq]
    rintro rfl
    exact absurd (Nat.isDigit_of_mem_toDigits (by decide) (by decide) hc) (by decide)
  have htake : id.text.takeWhile (· ≠ '-') = Nat.toDigits 10 id.ms.toNat := by
    rw [Id.text, List.takeWhile_append_of_pos hminus, List.takeWhile_cons_of_neg (by decide), List.append_nil]
  have hdrop : (id.text.dropWhile (· ≠ '-')).tail = Nat.toDigits 10 id.seq.toNat := by
    rw [Id.text, List.dropWhile_append_of_pos hminus, List.dropWhile_cons_of_neg (by decide), List.tail_cons]
  have hmem : '-' ∈ id.text := List.mem_append_right _ List.mem_cons_self
  rw [Id.parse, if_pos hmem, htake, hdrop, parseU64_toDigits, parseU64_toDigits]
  rfl

/-- A stream is read back with as many entries as it has. -/
theorem entryCount_toJson (s : Stream) : entryCount s.toJson = s.entries.size := by
  have hget : s.toJson.get? "entries" = some (.array (s.entries.toList.map fun (id, fields) =>
      .array [id.toJson, .array (fields.map .string)])) := by
    simp only [Stream.toJson, Json.get?]
    rfl
  have hid (id : Id) : idOf id.toJson = id := by
    rw [idOf, Id.toJson, Json.asString, Option.bind_some, String.toList_ofList, parse_text, Option.getD_some]
  have hids : (s.entries.toList.map fun (id, fields) => Json.array [id.toJson, .array (fields.map .string)]).map
      (fun e => idOf (e.at_ 0)) = s.entries.toList.map Prod.fst := by
    rw [List.map_map]
    apply List.map_congr_left
    rintro ⟨id, fields⟩ -
    exact hid id
  have hnodup : (s.entries.toList.map Prod.fst).Nodup := by
    rw [List.nodup_iff_pairwise_ne, List.pairwise_map]
    exact (sorted_toList (m := s.entries)).imp fun h => h.ne
  rw [entryCount, hget, Option.getD_some, Json.items, hids, List.dedup_eq_self.mpr hnodup, List.length_map,
    Std.ExtTreeMap.length_toList]

end Streams

namespace Resp

open Lib.Utf8 Lib.Program Front Streams

inductive Kind
  | list
  | set
  | zset
  | stream
  deriving DecidableEq

section

variable [External] [Chrono] [Codec] [Vectors]

/-- How many members a document has as a collection of one kind. -/
def Kind.count (kind : Kind) (j : Json) : Nat :=
  match kind with
  | .list => j.items.length
  | .set => if marked j = some "set" then (membersOf "set" j).length else 0
  | .zset => if marked j = some "zset" then (membersOf "zset" j).length else 0
  | .stream => if marked j = some "stream" then entryCount j else 0

/-- How many members the collection of that kind at a key has. -/
def Kind.size (kind : Kind) : Option (Value × Meta) → Nat
  | some (.doc j, _) => kind.count j
  | _ => 0

/-- The kind of collection a value is, and how many members it has. -/
def collection : Value → Option (Kind × Nat)
  | .doc (.array a) => some (.list, a.length)
  | .doc j =>
      if marked j = some "set" then some (.set, Kind.set.count j)
      else if marked j = some "zset" then some (.zset, Kind.zset.count j)
      else if marked j = some "stream" then some (.stream, Kind.stream.count j)
      else none
  | _ => none

/-- What a command stores: a list, a set or sorted set, a stream, or a value as it is (`RENAME`, `COPY`, `JSON.SET`). -/
inductive Store
  | list (k : String) (l : List Json) (expiresAt : Int64)
  | members (k : String) (zset : Bool) (ms : Members) (expiresAt : Int64)
  | stream (k : String) (s : Stream) (expiresAt : Int64)
  | whole (k : String) (v : Value) (expiresAt : Int64)

namespace Store

def key : Store → String
  | list k .. | members k .. | stream k .. | whole k .. => k

/-- The collection to be stored. -/
def stored : Store → Option (Kind × Nat)
  | list _ l _ => some (.list, l.length)
  | members _ zset ms _ => some (if zset then .zset else .set, ms.length)
  | stream _ s _ => some (.stream, s.entries.size)
  | whole _ v _ => collection v

/-- What the limit has to say before anything is written. -/
def check : Store → Cmd Unit
  | list k l _ => if l.length = 0 then return () else checkSize k "list" l.length
  | members k zset ms _ => if ms.length = 0 then return () else checkSize k (if zset then "sorted set" else "set") ms.length
  | stream k s _ => do
      let limit : Nat ← Cmd.ask .maxMembers
      let _ ← Prog.ofExcept (storeStream ⟨k, 0, limit, by decide⟩ s)
      return ()
  | whole .. => return ()

/-- Like Redis, an empty collection disappears, but for a stream. -/
def write : Store → Cmd Unit
  | list k l expiresAt =>
      if l.length = 0 then do
        let _ ← Cmd.del k
        return ()
      else Cmd.put k (listSave k l expiresAt).value expiresAt
  | members k zset ms expiresAt =>
      if ms.length = 0 then do
        let _ ← Cmd.del k
        return ()
      else Cmd.put k (setSave k (if zset then "zset" else "set") ms expiresAt).value expiresAt
  | stream k s expiresAt => Cmd.put k (.doc s.toJson) expiresAt
  | whole k v expiresAt => Cmd.put k v expiresAt

def run (s : Store) : Cmd Unit := do
  s.check
  s.write

omit [Codec] in
theorem run_list (k : String) (l : List Json) (expiresAt : Int64) :
    (list k l expiresAt).run = storeList k l expiresAt := by
  rw [run, check, write, storeList, listSave, Save.run]
  by_cases h : l.length = 0
  · simp only [if_pos h]
    rfl
  · simp only [if_neg h]

omit [Codec] in
theorem run_members (k : String) (zset : Bool) (ms : Members) (expiresAt : Int64) :
    (members k zset ms expiresAt).run = store k (if zset then "zset" else "set") ms expiresAt := by
  rw [run, check, write, store, setSave, Save.run]
  have hkind : (if (if zset then "zset" else "set" : String) = "set" then "set" else "sorted set" : String) =
      if zset then "sorted set" else "set" := by
    cases zset <;> rfl
  by_cases h : ms.length = 0
  · simp only [if_pos h]
    rfl
  · simp only [if_neg h, hkind]

/-- More members than the limit, and than the collection of that kind that is there. -/
def Grows (s : Store) (limit : Nat) (there : Option (Value × Meta)) : Prop :=
  ∃ kind n, s.stored = some (kind, n) ∧ 0 < limit ∧ limit < n ∧ kind.size there < n

/-- The limit makes the command fail. -/
def Declined (s : Store) (c : Conn) : Prop := ∃ r d, c.perform s.check = (.error r, d)

/-- Of `n` members above the limit, whether they are too many. -/
def Refuses (there : Option (Value × Meta)) (n : Nat) : Store → Prop
  | list .. | members .. => memberCount there < n
  | stream .. => True
  | whole .. => False

/-- What is there is taken for what it is: a list, set or sorted set that grows has more members than the key
holds of anything, a stream grows, and a value stored as it is does not. -/
def Fair (there : Option (Value × Meta)) (kind : Kind) (n : Nat) : Store → Prop
  | list .. | members .. => kind.size there < n → memberCount there < n
  | stream .. => kind.size there < n
  | whole .. => n ≤ kind.size there

def Counted (s : Store) (limit : Nat) (there : Option (Value × Meta)) : Prop :=
  ∀ kind n, s.stored = some (kind, n) → 0 < limit → limit < n → s.Fair there kind n

end Store

omit [External] [Chrono] [Codec] [Vectors] in
theorem length_ofTexts (names : List String) : (Members.ofTexts names).length ≤ names.length := by
  have hstep (names : List String) (ms : Members) :
      (names.foldl (fun ms m => ms.insert m .null) ms).length ≤ ms.length + names.length := by
    induction names generalizing ms with
    | nil => exact Nat.le_refl _
    | cons m names ih =>
        have hone : (ms.insert m .null).length ≤ ms.length + 1 := by
          rw [Members.insert]
          split
          · rw [List.length_map]
            exact Nat.le_succ _
          · rw [List.length_append]
            exact Nat.le_refl _
        have hrest := ih (ms.insert m .null)
        rw [List.foldl_cons, List.length_cons]
        omega
  have h := hstep names []
  rwa [List.length_nil, Nat.zero_add] at h

omit [External] [Codec] [Vectors] in
theorem memberCount_object {members : List (String × Json)} {m : Meta} :
    memberCount (some (.doc (.object members), m)) =
      match (Json.object members).get? "members" with
      | some (.array a) => a.length
      | some (.object o) => o.length
      | _ => 0 := rfl

omit [External] [Codec] [Vectors] in
/-- The members of a list, set or sorted set are all counted. -/
theorem size_le_memberCount {kind : Kind} (hkind : kind ≠ .stream) (there : Option (Value × Meta)) :
    kind.size there ≤ memberCount there := by
  rcases there with _ | ⟨v, m⟩
  · exact Nat.zero_le _
  cases v with
  | doc j =>
      rw [Kind.size]
      cases j with
      | array a =>
          cases kind with
          | list => exact Nat.le_refl _
          | set | zset => exact Nat.zero_le _
          | stream => exact absurd rfl hkind
      | object members =>
          rw [memberCount_object]
          cases kind with
          | list => exact Nat.zero_le _
          | set =>
              rw [Kind.count, membersOf]
              split
              · split
                · next a ha =>
                  rw [if_pos rfl]
                  exact ((length_ofTexts _).trans (List.length_filterMap_le _ _)).trans_eq (by simp [ha])
                · next o ho =>
                  simp [ho]
                · exact Nat.zero_le _
              · exact Nat.zero_le _
          | zset =>
              rw [Kind.count, membersOf]
              split
              · split
                · exact Nat.zero_le _
                · next o ho =>
                  simp [ho]
                · exact Nat.zero_le _
              · exact Nat.zero_le _
          | stream => exact absurd rfl hkind
      | null | bool | number | string =>
          cases kind with
          | stream => exact absurd rfl hkind
          | _ => exact Nat.zero_le _
  | _ => exact Nat.zero_le _

section

variable {c c₁ : Conn} {there : Option (Value × Meta)}

theorem perform_checkSize {k : String} (hread : c.perform (Cmd.get k) = (.ok there, c₁)) (kind : String) (n : Nat) :
    (∃ r d, c.perform (checkSize k kind n) = (.error r, d)) ↔
      0 < c.site.server.maxMembers ∧ c.site.server.maxMembers < n ∧ memberCount there < n := by
  rw [checkSize, Conn.perform_ask rfl]
  dsimp only
  by_cases hlimit : c.site.server.maxMembers = 0 ∨ n ≤ c.site.server.maxMembers
  · rw [if_pos hlimit]
    constructor
    · rintro ⟨r, d, h⟩
      exact nomatch (Prod.mk.inj h).1
    · rintro ⟨hpos, hlt, -⟩
      omega
  · rw [if_neg hlimit, Conn.perform_bind, hread]
    dsimp only
    by_cases hnow : n ≤ memberCount there
    · rw [if_pos hnow]
      constructor
      · rintro ⟨r, d, h⟩
        exact nomatch (Prod.mk.inj h).1
      · rintro ⟨-, -, hlt⟩
        omega
    · rw [if_neg hnow]
      constructor
      · intro _
        omega
      · intro _
        exact ⟨_, _, rfl⟩

/-- What each way of storing does about the limit. -/
theorem declined_iff {s : Store} (hread : c.perform (Cmd.get s.key) = (.ok there, c₁)) :
    s.Declined c ↔ ∃ kind n, s.stored = some (kind, n) ∧ 0 < c.site.server.maxMembers ∧ c.site.server.maxMembers < n ∧
      s.Refuses there n := by
  have hone {kind : Kind} {m : Nat} {P : Nat → Prop} :
      (∃ kind' n, some (kind, m) = some (kind', n) ∧ 0 < c.site.server.maxMembers ∧ c.site.server.maxMembers < n ∧ P n) ↔
        0 < c.site.server.maxMembers ∧ c.site.server.maxMembers < m ∧ P m := by
    constructor
    · rintro ⟨kind', n, heq, h⟩
      obtain ⟨-, rfl⟩ := Prod.mk.inj (Option.some.inj heq)
      exact h
    · intro h
      exact ⟨kind, m, rfl, h⟩
  have hempty {n : Nat} (h : n = 0) {P : Prop} :
      (∃ r d, c.perform (return () : Cmd Unit) = (.error r, d)) ↔
        0 < c.site.server.maxMembers ∧ c.site.server.maxMembers < n ∧ P := by
    constructor
    · rintro ⟨r, d, h⟩
      exact nomatch (Prod.mk.inj h).1
    · rintro ⟨-, hlt, -⟩
      omega
  cases s with
  | list k l expiresAt =>
      rw [Store.Declined, Store.check, Store.stored, hone]
      by_cases h : l.length = 0
      · rw [if_pos h]
        exact hempty h
      · rw [if_neg h]
        exact perform_checkSize hread _ _
  | members k zset ms expiresAt =>
      rw [Store.Declined, Store.check, Store.stored, hone]
      by_cases h : ms.length = 0
      · rw [if_pos h]
        exact hempty h
      · rw [if_neg h]
        exact perform_checkSize hread _ _
  | stream k s expiresAt =>
      rw [Store.Declined, Store.check, Store.stored, hone, Conn.perform_ask rfl, Conn.perform_bind, Conn.perform_ofExcept, storeStream]
      by_cases h : 0 < c.site.server.maxMembers ∧ c.site.server.maxMembers < s.entries.size
      · rw [if_pos h]
        exact ⟨fun _ => ⟨h.1, h.2, trivial⟩, fun _ => ⟨_, _, rfl⟩⟩
      · rw [if_neg h]
        constructor
        · rintro ⟨r, d, h⟩
          exact nomatch (Prod.mk.inj h).1
        · rintro ⟨hpos, hlt, -⟩
          exact absurd ⟨hpos, hlt⟩ h
  | whole k v expiresAt =>
      constructor
      · rintro ⟨r, d, h⟩
        exact nomatch (Prod.mk.inj h).1
      · rintro ⟨_, _, -, -, -, h⟩
        exact h.elim

/-- The limit refuses growth and nothing else exactly where what is there is counted as what it is. -/
theorem limit_exact {s : Store} (hread : c.perform (Cmd.get s.key) = (.ok there, c₁)) :
    (s.Declined c ↔ s.Grows c.site.server.maxMembers there) ↔ s.Counted c.site.server.maxMembers there := by
  rw [declined_iff hread, Store.Grows, Store.Counted]
  cases hs : s.stored with
  | none =>
      refine ⟨fun _ _ _ h => (nomatch h), fun _ => ⟨?_, ?_⟩⟩
      · rintro ⟨_, _, h, -⟩
        exact nomatch h
      · rintro ⟨_, _, h, -⟩
        exact nomatch h
  | some p =>
      obtain ⟨kind, n⟩ := p
      have hone {P : Kind → Nat → Prop} : (∃ kind' n', some (kind, n) = some (kind', n') ∧ P kind' n') ↔ P kind n := by
        constructor
        · rintro ⟨kind', n', heq, h⟩
          obtain ⟨rfl, rfl⟩ := Prod.mk.inj (Option.some.inj heq)
          exact h
        · intro h
          exact ⟨kind, n, rfl, h⟩
      have hall {P : Kind → Nat → Prop} : (∀ kind' n', some (kind, n) = some (kind', n') → P kind' n') ↔ P kind n := by
        constructor
        · intro h
          exact h kind n rfl
        · rintro h kind' n' heq
          obtain ⟨rfl, rfl⟩ := Prod.mk.inj (Option.some.inj heq)
          exact h
      rw [hone, hone, hall]
      by_cases habove : 0 < c.site.server.maxMembers ∧ c.site.server.maxMembers < n
      · obtain ⟨hpos, hlt⟩ := habove
        simp only [hpos, hlt, true_and, forall_const]
        cases s with
        | list k l expiresAt =>
            obtain ⟨rfl, rfl⟩ := Prod.mk.inj (Option.some.inj hs)
            have hle : Kind.list.size there ≤ memberCount there := size_le_memberCount (by decide) there
            exact ⟨fun h => h.mpr, fun h => ⟨fun hcount => Nat.lt_of_le_of_lt hle hcount, h⟩⟩
        | members k zset ms expiresAt =>
            obtain ⟨rfl, rfl⟩ := Prod.mk.inj (Option.some.inj hs)
            have hle : (if zset then Kind.zset else Kind.set).size there ≤ memberCount there :=
              size_le_memberCount (by cases zset <;> decide) there
            exact ⟨fun h => h.mpr, fun h => ⟨fun hcount => Nat.lt_of_le_of_lt hle hcount, h⟩⟩
        | stream k s expiresAt => exact ⟨fun h => h.mp trivial, fun h => ⟨fun _ => h, fun _ => trivial⟩⟩
        | whole k v expiresAt =>
            refine ⟨fun h => not_lt.mp fun hlt => h.mpr hlt, fun h => ⟨False.elim, fun hlt => ?_⟩⟩
            exact absurd hlt (not_lt.mpr h)
      · have hnot {P : Prop} : ¬ (0 < c.site.server.maxMembers ∧ c.site.server.maxMembers < n ∧ P) :=
          fun h => habove ⟨h.1, h.2.1⟩
        exact ⟨fun _ hpos hlt => absurd ⟨hpos, hlt⟩ habove, fun _ => ⟨fun h => absurd h hnot, fun h => absurd h hnot⟩⟩

end

end

section Samples

open Reference

local instance sizesBuild : Build := ⟨true⟩

/-- A stream of two entries, the first of which is pending. -/
def twoJobs : Stream :=
  ((Stream.empty.add ⟨1, 0⟩ ["task", "a"]).add ⟨2, 0⟩ ["task", "b"]).setGroup "workers"
    ⟨⟨1, 0⟩, some 1, (∅ : Pel).insert ⟨1, 0⟩ ⟨"bob", 10, 1⟩, ∅⟩

/-- The stream is the only document, written as one byte. -/
local instance sizesCodec : Codec :=
  { codec [] with
    encodeStored := fun _ _ => .ok ([1], .json)
    decode := fun _ _ _ => .ok (.doc twoJobs.toJson) }

/-- The stream is stored, and the limit is now one member. -/
def crowded : Conn :=
  let c := ((connection server [] 5).perform (Cmd.put "jobs" (.doc twoJobs.toJson) 0)).2
  { c with site := { c.site with server := { c.site.server with maxMembers := 1 } } }

def found (c : Conn) : Option (Value × Meta) :=
  match (c.perform (Cmd.get "jobs")).1 with
  | .ok there => there
  | .error _ => none

def isFound (c : Conn) : Bool :=
  match (c.perform (Cmd.get "jobs")).1 with
  | .ok _ => true
  | .error _ => false

theorem perform_found {c : Conn} (hfound : isFound c = true) :
    c.perform (Cmd.get "jobs") = (.ok (found c), (c.perform (Cmd.get "jobs")).2) := by
  rw [isFound] at hfound
  rw [found]
  cases hget : c.perform (Cmd.get "jobs") with
  | mk read c' =>
      rw [hget] at hfound
      cases read with
      | ok there => rfl
      | error e => exact nomatch hfound

theorem crowded_read :
    crowded.perform (Cmd.get "jobs") = (.ok (found crowded), (crowded.perform (Cmd.get "jobs")).2) := by
  apply perform_found
  decide +kernel

def jobsStore : Store := .stream "jobs" twoJobs 0

theorem limit_exact_jobs : (jobsStore.Declined crowded ↔ jobsStore.Grows crowded.site.server.maxMembers (found crowded)) ↔
    jobsStore.Counted crowded.site.server.maxMembers (found crowded) :=
  limit_exact crowded_read

def isRefused : Option (Option Stream × Answer) → Bool
  | some (_, .refused _) => true
  | _ => false

/-- Acknowledging an entry leaves the members alone, and is refused. -/
theorem ack_refused :
    isRefused (step ⟨"jobs", 1000, 1, by decide⟩ (some twoJobs) (.ack "workers" [⟨1, 0⟩])) = true ∧
      isRefused (step ⟨"jobs", 1000, 0, by decide⟩ (some twoJobs) (.ack "workers" [⟨1, 0⟩])) = false ∧
      ¬ (jobsStore.Declined crowded ↔ jobsStore.Grows crowded.site.server.maxMembers (found crowded)) := by
  have hsize : twoJobs.entries.size = 2 := by decide
  have hthere : Kind.stream.size (found crowded) = 2 := by decide +kernel
  have hpos : 0 < crowded.site.server.maxMembers := by decide
  have hlt : crowded.site.server.maxMembers < 2 := by decide
  refine ⟨by decide, by decide, ?_⟩
  intro h
  have hdeclined : jobsStore.Declined crowded :=
    (declined_iff (s := jobsStore) crowded_read).mpr ⟨.stream, twoJobs.entries.size, rfl, hpos, hsize ▸ hlt, trivial⟩
  obtain ⟨kind, n, hstored, -, -, hgrows⟩ := h.mp hdeclined
  obtain ⟨rfl, rfl⟩ := Prod.mk.inj (Option.some.inj hstored)
  rw [hthere, hsize] at hgrows
  exact Nat.lt_irrefl 2 hgrows

end Samples

end Resp

end KivaDb
