import KivaDb.Front.Reference
import KivaDb.Resp.Values

namespace KivaDb.Resp

open Lib.LittleEndian Lib.Utf8 Lib.Program Front Glob

structure ScanOptions where
  pattern : String
  count : Nat
  kind : Option String
  deriving DecidableEq

/-- The options come in pairs; a last one without a value is left aside. -/
def scanOptions : List Bytes → ScanOptions → Except Reply ScanOptions
  | name :: value :: rest, o =>
      match upper name with
      | "MATCH" => do scanOptions rest { o with pattern := ← text value }
      | "COUNT" => do
          let n ← int value
          scanOptions rest { o with count := (max 1 (min 100000 n.toInt)).toNat }
      | "TYPE" => do scanOptions rest { o with kind := some (← text value).toLower }
      | _ => .error (.err "syntax error")
  | _, o => .ok o

theorem scanOptions_count {args : List Bytes} {o o' : ScanOptions} (ho : 1 ≤ o.count)
    (h : scanOptions args o = .ok o') : 1 ≤ o'.count := by
  induction args, o using scanOptions.induct with
  | case1 o name value rest hname ih =>
      simp only [scanOptions, hname, Lib.Fallible.except_bind_ok] at h
      obtain ⟨pattern, -, h⟩ := h
      exact ih pattern ho h
  | case2 o name value rest hname ih =>
      simp only [scanOptions, hname, Lib.Fallible.except_bind_ok] at h
      obtain ⟨n, -, h⟩ := h
      refine ih n ?_ h
      show 1 ≤ (max 1 (min 100000 n.toInt)).toNat
      omega
  | case3 o name value rest hname ih =>
      simp only [scanOptions, hname, Lib.Fallible.except_bind_ok] at h
      obtain ⟨kind, -, h⟩ := h
      exact ih kind ho h
  | case4 o name value rest h1 h2 h3 => simp [scanOptions] at h
  | case5 args o h1 =>
      rw [scanOptions] at h
      · exact Except.ok.inj h ▸ ho
      · exact h1

theorem mem_page {α : Type} {l : List α} {x : α} {cursor last n : Nat} (hx : l[n]? = some x) (hc : cursor ≤ n)
    (hn : n < last) : x ∈ (l.take last).drop cursor := by
  refine List.mem_iff_getElem?.mpr ⟨n - cursor, ?_⟩
  rw [List.getElem?_drop, Nat.add_sub_cancel' hc, List.getElem?_take_of_lt hn, hx]

section

variable [External] [Chrono] [Codec] [Vectors]

/-- Telling a set from a hash means reading the value: only with TYPE. -/
def isWanted (kind : Option String) (k : String) (ty : Ty) : Cmd Bool :=
  match kind with
  | none => return true
  | some w => do return (← redisType k ty) = w

/-- The keys of a page that are asked for. -/
def scanPage (o : ScanOptions) : List (String × Entry) → Cmd (List Reply)
  | [] => return []
  | (k, e) :: rest => do
      if !globMatch o.pattern k then scanPage o rest
      else
        let wanted ← isWanted o.kind k e.ty
        let more ← scanPage o rest
        return if wanted then .text k :: more else more

/-- The cursor is a position in the sorted key list. -/
def scan (args : List Bytes) : Cmd Reply := do
  Prog.ofExcept (arity args 2)
  Cmd.ask (.check .read)
  let n ← Prog.ofExcept (int (args.getD 1 []))
  if n < 0 then .fail (.err "invalid cursor")
  else
    let cursor := n.toInt.toNat
    let o ← Prog.ofExcept (scanOptions (args.drop 2) ⟨"*", 10, none⟩)
    let all : List (String × Entry) ← Cmd.ask .range
    let last := min (cursor + o.count) all.length
    let keys ← scanPage o ((all.take last).drop cursor)
    let next := if all.length ≤ last then 0 else last
    return .array (some [.text (toString next), .array (some keys)])

/-- The keys a session finds when it next turns to its engine. -/
def listed (site : Site) : List (String × Entry) :=
  let m := site.moments 0
  ((m.others.foldl Server.apply site.server).engines site.sess.ws).index.toList.filter fun p =>
    !p.2.isExpired (m.clock.now 0)

omit [Codec] in
theorem scanPage_all (pattern : String) (count : Nat) (l : List (String × Entry)) :
    scanPage ⟨pattern, count, none⟩ l =
      pure ((l.filter fun p => globMatch pattern p.1).map fun p => .text p.1) := by
  induction l with
  | nil => rfl
  | cons p l ih =>
      obtain ⟨k, e⟩ := p
      cases hk : globMatch pattern k with
      | false => simp [scanPage, hk, ih]
      | true =>
          simp only [scanPage, hk, ih, isWanted, Bool.not_true, Bool.false_eq_true, if_false, List.filter_cons, if_true,
            List.map_cons]
          rfl

theorem answer_range (c : Conn) : answer .range c = (.ok (listed c.site), (answer .range c).2) := rfl

/-- What a call without TYPE finds from `cursor` on. -/
def scanned (all : List (String × Entry)) (pattern : String) (count cursor : Nat) : Reply :=
  let last := min (cursor + count) all.length
  .array (some [.text (toString (if all.length ≤ last then 0 else last)),
    .array (some ((((all.take last).drop cursor).filter fun p => globMatch pattern p.1).map fun p => .text p.1))])

theorem perform_scan {c : Conn} {cursor : Nat} {name : Bytes} {options : List Bytes} {pattern : String} {count : Nat}
    (ho : scanOptions options ⟨"*", 10, none⟩ = .ok ⟨pattern, count, none⟩) (hcheck : c.site.sess.check .read = .ok ())
    (hn : cursor < 2 ^ 63) :
    c.perform (scan (name :: asBytes (toString cursor) :: options)) =
      (.ok (scanned (listed c.site) pattern count cursor), (answer .range c).2) := by
  have har : arity (name :: asBytes (toString cursor) :: options) 2 = .ok () := by
    simp [arity]
  have hans : answer (.check .read) c = (.ok (), c) := congrArg (·, c) hcheck
  have hpos : ¬ Int64.ofNat cursor < 0 := by
    rw [Int64.lt_iff_toInt_lt, Int64.toInt_ofNat_of_lt hn]
    simp
  have hcur : (Int64.ofNat cursor).toInt.toNat = cursor := by
    rw [Int64.toInt_ofNat_of_lt hn]
    simp
  simp only [scan, har, Prog.ofExcept_ok_bind, List.getD_cons_succ, List.getD_cons_zero, int_toString cursor,
    List.drop_succ_cons, List.drop_zero, ho, scanPage_all, Prog.pure_bind]
  rw [Conn.perform_ask hans]
  simp only [if_pos hn, Prog.ofExcept_ok_bind]
  rw [if_neg hpos, hcur, Conn.perform_ask (answer_range c)]
  rfl

theorem perform_scan_ok {c : Conn} {cursor : Nat} {name : Bytes} {options : List Bytes} {pattern : String} {count : Nat}
    {r : Reply} (ho : scanOptions options ⟨"*", 10, none⟩ = .ok ⟨pattern, count, none⟩)
    (h : (c.perform (scan (name :: asBytes (toString cursor) :: options))).1 = .ok r) :
    r = scanned (listed c.site) pattern count cursor := by
  have har : arity (name :: asBytes (toString cursor) :: options) 2 = .ok () := by
    simp [arity]
  cases hcheck : c.site.sess.check .read with
  | error e =>
      have hans : answer (.check .read) c = (.error e, c) := congrArg (·, c) hcheck
      simp only [scan, har, Prog.ofExcept_ok_bind] at h
      rw [Conn.perform_ask_error hans] at h
      cases h
  | ok u =>
      by_cases hn : cursor < 2 ^ 63
      · rw [perform_scan ho hcheck hn] at h
        exact (Except.ok.inj h).symm
      · have hans : answer (.check .read) c = (.ok u, c) := congrArg (·, c) hcheck
        simp only [scan, har, Prog.ofExcept_ok_bind, List.getD_cons_succ, List.getD_cons_zero, int_toString cursor,
          if_neg hn] at h
        rw [Conn.perform_ask hans] at h
        cases h

/-- One call of an iteration: the connection and the options it was made with,
the cursor and the keys it returned. -/
structure Turn where
  conn : Conn
  options : List Bytes
  next : Nat
  keys : List Reply

namespace Turn

/-- The keys there are at the call. -/
def present (t : Turn) : List String := (listed t.conn.site).map Prod.fst

/-- How many keys come before `k` at the call. -/
def place (t : Turn) (k : String) : Nat := t.present.idxOf k

/-- The call, with any COUNT, from `cursor`. -/
def Runs (t : Turn) (pattern : String) (cursor : Nat) : Prop :=
  (∃ count, scanOptions t.options ⟨"*", 10, none⟩ = .ok ⟨pattern, count, none⟩) ∧
    (t.conn.perform (scan (asBytes "SCAN" :: asBytes (toString cursor) :: t.options))).1 =
      .ok (.array (some [.text (toString t.next), .array (some t.keys)]))

/-- `k` comes after the cursor at the one call, and before it at the next. -/
def Passes (k : String) (t t' : Turn) : Prop := t.next ≤ t.place k ∧ t'.place k < t.next

instance (k : String) (t t' : Turn) : Decidable (t.Passes k t') := inferInstanceAs (Decidable (_ ∧ _))

end Turn

/-- Calls from `cursor` on, each one from the cursor the one before returned,
until 0 comes back. -/
def Iteration (pattern : String) : Nat → List Turn → Prop
  | _, [] => False
  | cursor, t :: ts => t.Runs pattern cursor ∧ if t.next = 0 then ts = [] else Iteration pattern t.next ts

/-- A call returns the matching keys from its cursor on, up to the one it
returns, or to the end. -/
theorem Turn.Runs.returns {t : Turn} {pattern : String} {cursor : Nat} (h : t.Runs pattern cursor) {k : String}
    (hk : globMatch pattern k = true) (hp : k ∈ t.present) (hc : cursor ≤ t.place k)
    (hn : t.next = 0 ∨ t.place k < t.next) : .text k ∈ t.keys := by
  obtain ⟨⟨count, ho⟩, hr⟩ := h
  have hspec := perform_scan_ok ho hr
  simp only [scanned, Reply.array.injEq, Option.some.injEq, List.cons.injEq, and_true] at hspec
  obtain ⟨hnext, hkeys⟩ := hspec
  have hnext := toString_injective (Reply.text_injective hnext)
  have hlt : t.place k < (listed t.conn.site).length := by
    have hlt := List.idxOf_lt_length_of_mem hp
    simpa [Turn.present, Turn.place] using hlt
  obtain ⟨p, hpl⟩ : ∃ p, (listed t.conn.site)[t.place k]? = some p := ⟨_, List.getElem?_eq_getElem hlt⟩
  have hfst : p.1 = k := by
    have hget : t.present[t.place k]? = some k := List.getElem?_idxOf hp
    rw [Turn.present, List.getElem?_map, hpl] at hget
    simpa using hget
  have hcount : 1 ≤ count := scanOptions_count (show 1 ≤ 10 by decide) ho
  have hlast : t.place k < min (cursor + count) (listed t.conn.site).length := by
    split at hnext <;> omega
  rw [hkeys, List.mem_map]
  exact ⟨p, List.mem_filter.mpr ⟨mem_page hpl hc hlast, hfst ▸ hk⟩, by rw [hfst]⟩

theorem Iteration.returns {pattern k : String} {turns : List Turn} {cursor : Nat}
    (h : Iteration pattern cursor turns) (hk : globMatch pattern k = true) (hp : ∀ t ∈ turns, k ∈ t.present)
    (hstays : turns.IsChain fun t t' => ¬ t.Passes k t') (hfirst : ∀ t ∈ turns.head?, cursor ≤ t.place k) :
    ∃ t ∈ turns, .text k ∈ t.keys := by
  induction turns generalizing cursor with
  | nil => exact h.elim
  | cons t ts ih =>
      obtain ⟨hrun, hrest⟩ := h
      have hhere := hp t List.mem_cons_self
      have hc : cursor ≤ t.place k := hfirst t rfl
      by_cases hn : t.next = 0 ∨ t.place k < t.next
      · exact ⟨t, List.mem_cons_self, hrun.returns hk hhere hc hn⟩
      · rw [not_or, Nat.not_lt] at hn
        rw [if_neg hn.1] at hrest
        have htail : ts.IsChain fun t t' => ¬ t.Passes k t' := hstays.tail
        have hnext : ∀ t' ∈ ts.head?, t.next ≤ t'.place k := by
          intro t' ht'
          by_contra hlt
          cases ts with
          | nil => cases ht'
          | cons t'' ts =>
              obtain rfl := Option.some.inj ht'
              exact (List.isChain_cons_cons.mp hstays).1 ⟨hn.2, Nat.not_le.mp hlt⟩
        obtain ⟨t', ht', hmem⟩ := ih hrest (fun t ht => hp t (List.mem_cons_of_mem _ ht)) htail hnext
        exact ⟨t', List.mem_cons_of_mem _ ht', hmem⟩

/-- A full iteration returns every matching key that is there at each of its
calls, unless the cursor passes over it from one call to the next. -/
theorem scan_returns_lasting_key {pattern k : String} {turns : List Turn} (h : Iteration pattern 0 turns)
    (hk : globMatch pattern k = true) (hp : ∀ t ∈ turns, k ∈ t.present)
    (hstays : turns.IsChain fun t t' => ¬ t.Passes k t') : ∃ t ∈ turns, .text k ∈ t.keys :=
  h.returns hk hp hstays fun _ _ => Nat.zero_le _

end

section Samples

open Reference

local instance scanCodec : Codec := codec []

/-- A server that holds the keys `a`, `b`, `c` and `d`. -/
def fourKeys : Server :=
  ["a", "b", "c", "d"].foldl (fun s k => s.apply (.put "default" k (.str "x") 0 false (.still 5) (.error ""))) server

def byTwo : List Bytes := [asBytes "COUNT", asBytes "2"]

/-- A connection whose second call finds that others did `meanwhile`. -/
def paging (meanwhile : List Change) : Conn :=
  connection fourKeys [quiet 10, { quiet 10 with others := meanwhile }] 10

def deleting (k : String) : List Change := [.delete "default" k (.still 10) (.error "")]

theorem byTwo_options : scanOptions byTwo ⟨"*", 10, none⟩ = .ok ⟨"*", 2, none⟩ := by decide +kernel

/-- A call by two keys, when no key has a `*` in it. -/
theorem scan_byTwo {c : Conn} {cursor : Nat} (hcheck : c.site.sess.check .read = .ok ()) (hn : cursor < 2 ^ 63)
    (hk : ∀ p ∈ listed c.site, '*' ∉ p.1.toList) {next : Nat} {keys : List Reply}
    (hnext : (if (listed c.site).length ≤ cursor + 2 then 0 else cursor + 2) = next)
    (hkeys : (((listed c.site).take (cursor + 2)).drop cursor).map (fun p => .text p.1) = keys) :
    c.perform (scan (asBytes "SCAN" :: asBytes (toString cursor) :: byTwo)) =
      (.ok (.array (some [.text (toString next), .array (some keys)])), (answer .range c).2) := by
  have hall : ((listed c.site).take (cursor + 2)).drop cursor =
      (((listed c.site).take (cursor + 2)).drop cursor).filter fun p => globMatch "*" p.1 := by
    refine (List.filter_eq_self.mpr fun p hp => globMatch_star (hk p ?_)).symm
    exact List.mem_of_mem_take (List.mem_of_mem_drop hp)
  have hlast : (listed c.site).take (min (cursor + 2) (listed c.site).length) = (listed c.site).take (cursor + 2) :=
    List.take_eq_take_min.symm
  have hcursor : (if (listed c.site).length ≤ min (cursor + 2) (listed c.site).length then 0
      else min (cursor + 2) (listed c.site).length) = next := by
    rw [← hnext]
    by_cases hl : (listed c.site).length ≤ cursor + 2
    · rw [if_pos hl, if_pos (by omega)]
    · rw [if_neg hl, if_neg (by omega)]
      omega
  rw [perform_scan byTwo_options hcheck hn, scanned, hlast, ← hall, hkeys, hcursor]

/-- Two calls by two keys, the second one from where the first one leaves the
connection. -/
def twoCalls (meanwhile : List Change) (last : List Reply) : List Turn :=
  [⟨paging meanwhile, byTwo, 2, [.text "a", .text "b"]⟩, ⟨(answer .range (paging meanwhile)).2, byTwo, 0, last⟩]

theorem twoCalls_first (meanwhile : List Change) :
    (paging meanwhile).perform (scan (asBytes "SCAN" :: asBytes (toString 0) :: byTwo)) =
      (.ok (.array (some [.text (toString 2), .array (some [.text "a", .text "b"])])),
        (answer .range (paging meanwhile)).2) := by
  have hsite : listed (paging meanwhile).site = listed (paging []).site := rfl
  have hk : ∀ p ∈ listed (paging []).site, '*' ∉ p.1.toList := by decide
  have hnext : (if (listed (paging []).site).length ≤ 0 + 2 then 0 else 0 + 2) = 2 := by decide
  have hkeys : (((listed (paging []).site).take (0 + 2)).drop 0).map (fun p => .text p.1) =
      [Reply.text "a", .text "b"] := by decide
  exact scan_byTwo rfl (by decide) (hsite ▸ hk) (hsite ▸ hnext) (hsite ▸ hkeys)

theorem twoCalls_iterate {meanwhile : List Change} {last : List Reply}
    (hk : ∀ p ∈ listed (answer .range (paging meanwhile)).2.site, '*' ∉ p.1.toList)
    (hlen : (listed (answer .range (paging meanwhile)).2.site).length ≤ 4)
    (hkeys : (((listed (answer .range (paging meanwhile)).2.site).take 4).drop 2).map (fun p => .text p.1) = last) :
    Iteration "*" 0 (twoCalls meanwhile last) := by
  refine ⟨⟨⟨2, byTwo_options⟩, congrArg Prod.fst (twoCalls_first meanwhile)⟩, ?_⟩
  refine ⟨⟨⟨2, byTwo_options⟩, ?_⟩, rfl⟩
  exact congrArg Prod.fst (scan_byTwo rfl (by decide) hk (if_pos hlen) hkeys)

theorem scan_returns_lasting_key_sample : ∃ t ∈ twoCalls (deleting "d") [.text "c"], .text "c" ∈ t.keys := by
  refine scan_returns_lasting_key (twoCalls_iterate ?_ ?_ ?_) (globMatch_star ?_) ?_ ?_
  · decide
  · decide
  · decide
  · decide
  · decide
  · refine List.isChain_cons_cons.mpr ⟨?_, List.isChain_singleton _⟩
    decide

/-- A key before the cursor is deleted between two calls. -/
theorem scan_misses_lasting_key :
    Iteration "*" 0 (twoCalls (deleting "a") [.text "d"]) ∧ (∀ t ∈ twoCalls (deleting "a") [.text "d"], "c" ∈ t.present) ∧
      globMatch "*" "c" = true ∧ ¬ ∃ t ∈ twoCalls (deleting "a") [.text "d"], .text "c" ∈ t.keys := by
  refine ⟨twoCalls_iterate ?_ ?_ ?_, ?_, globMatch_star ?_, ?_⟩
  · decide
  · decide
  · decide
  · decide
  · decide
  · decide

end Samples

end KivaDb.Resp
